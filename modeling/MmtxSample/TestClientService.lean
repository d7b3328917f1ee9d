import MmtxSample.DistributedInsert

/-!
# The methods of TestClientService

Each method of `TestClientService` is there twice. `txMM` and `txMMExe` run under the global
transaction of `@LcnTransactional`; `tx` and `txExe`, statement for statement the same, run under
Spring's `@Transactional`, which knows nothing but the connection of demo-client. The GET that they
send belongs to no transaction: demo-server commits its insert at once, and no exception in
demo-client takes it back.

So the two annotations differ in what they make of the same events (`Scope.apply`). Two results
follow for any number of calls of all four methods at once. Had every method `@LcnTransactional`,
the same run would go the same way, and leave the same tables but for the rows of `test_tx_server`
whose call has thrown (`lcn_instead`). And after any run the rows of a call are accounted for by
the requests that were carried out for it (`rows_accounted`): a call of `txExe` that gets as far as
the exception has always left its rows behind.
-/

namespace MmtxSample

open TransitionSystem

/-- How many rows a step adds to `test_tx_server`. -/
def TableOp.inserted : TableOp → ℕ
  | .insertServer _ => 1
  | _ => 0

/-- How many of `k` rows a step leaves in `test_tx_client`. -/
def TableOp.clientRows (k : ℕ) : TableOp → ℕ
  | .insertClient _ => k + 1
  | .rollback => 0
  | _ => k

namespace TestClientService

/-- What a method is annotated with, and so how far its transaction reaches. -/
inductive Scope
  | Transactional
  | LcnTransactional
  deriving DecidableEq, Repr

/-- The methods of `TestClientService`. -/
inductive TxMethod
  | tx
  | txExe
  | txMM
  | txMMExe
  deriving DecidableEq, Repr

def TxMethod.scope : TxMethod → Scope
  | tx | txExe => .Transactional
  | txMM | txMMExe => .LcnTransactional

/-- The method with the same statements that has `@LcnTransactional`. -/
def TxMethod.inLcn : TxMethod → Method
  | tx | txMM => .txMM
  | txExe | txMMExe => .txMMExe

structure TxCall where
  method : TxMethod
  phase : Phase
  deriving DecidableEq, Repr

def TxCall.inLcn (c : TxCall) : Call := ⟨c.method.inLcn, c.phase⟩

inductive TxEvent
  | call (method : TxMethod)
  /-- what happens to a call that has been made -/
  | goOn (e : CallEvent)
  deriving DecidableEq, Repr

def TxEvent.inLcn : TxEvent → CallEvent
  | call m => .call m.inLcn
  | goOn e => e

/-- The next step of a call: the statements are those of the methods with `@LcnTransactional`. -/
def TxCall.advance : Option TxCall → TxEvent → Option (TxCall × TableOp)
  | none, .call m => some (⟨m, .requested 0⟩, .nothing)
  | some c, .goOn e => (c.inLcn.next e).map fun (c', op) => (⟨c.method, c'.phase⟩, op)
  | _, _ => none

/-- What an event of call `i` does to the tables. Without a global transaction the insert on
demo-server is committed by itself, and the end of the method ends the local insert only. -/
def Scope.apply (i : ℕ) (t : Tables) : Scope → TableOp → Tables
  | LcnTransactional, op => t.apply i op
  | Transactional, .insertServer millis =>
    { t with
      test_tx_server := t.test_tx_server ++ [{ Tables.newRow i millis with committed := true }] }
  | Transactional, op => { t.apply i op with test_tx_server := t.test_tx_server }

/-- All calls and the tables they share. -/
structure Service where
  calls : ℕ → Option TxCall
  tables : Tables

/-- A call does not change its method. -/
theorem next_method {c c' : Call} {e : CallEvent} {op : TableOp} (h : c.next e = some (c', op)) :
    c'.method = c.method := by
  have hstep : Demo.CallStep (some c) e c' op := Demo.callStep_of_advance h
  cases hstep <;> rfl

/-- Only a call that has not ended takes a step, and ends by a commit or a rollback. -/
theorem step_phases {call : Option Call} {e : CallEvent} {c : Call} {op : TableOp}
    (h : Demo.CallStep call e c op) :
    (∀ c₀, call = some c₀ → c₀.phase ≠ .returned ∧ c₀.phase ≠ .threw) ∧
      (c.phase = .returned ↔ op = .commit) ∧ (c.phase = .threw ↔ op = .rollback) := by
  have hlost : ∀ (c : Call) n, (c.lost n).phase ≠ .returned ∧ (c.lost n).phase ≠ .threw := by
    intro c n
    unfold Call.lost
    split <;> simp
  cases h with
  | requestLost m n | answerLost m n => simp [hlost]
  | _ => simp

namespace Service

/-- Call `i` takes a step. -/
def step (s : Service) (l : ℕ × TxEvent) : Option Service :=
  (TxCall.advance (s.calls l.1) l.2).map fun (c, op) =>
    ⟨Function.update s.calls l.1 (some c), c.method.scope.apply l.1 s.tables op⟩

def machine : Machine Service (ℕ × TxEvent) := ⟨⟨fun _ => none, Tables.empty⟩, step⟩

/-- The run in which every method has `@LcnTransactional`. -/
def inLcnLabel (l : ℕ × TxEvent) : ℕ × CallEvent := (l.1, l.2.inLcn)

/-- Call `i` has come to `phase`. -/
def At (s : Service) (phase : Phase) (i : ℕ) : Prop :=
  (s.calls i).map TxCall.phase = some phase

instance (s : Service) (phase : Phase) (i : ℕ) : Decidable (s.At phase i) :=
  inferInstanceAs (Decidable (_ = _))

/-- The rows of `test_tx_server` under global transactions: a call that has thrown has none, and a
row is committed when its call has returned. -/
def serverInLcn (s : Service) (rows : List Row) : List Row :=
  (rows.filter fun row => ¬ s.At .threw row.call).map fun row =>
    { row with committed := s.At .returned row.call }

/-- What the state would be, had every method `@LcnTransactional`. -/
def inLcn (s : Service) : Demo where
  calls i := (s.calls i).map TxCall.inLcn
  tables := ⟨s.serverInLcn s.tables.test_tx_server, s.tables.test_tx_client⟩

/-! ## The same run under global transactions -/

/-- A call advances as its counterpart does. -/
theorem advance_inLcn {call : Option TxCall} {e : TxEvent} {c : TxCall} {op : TableOp}
    (h : TxCall.advance call e = some (c, op)) :
    Call.advance (call.map TxCall.inLcn) e.inLcn = some (c.inLcn, op) := by
  cases call with
  | none =>
    cases e with
    | call m => cases h; rfl
    | goOn e => cases h
  | some c₀ =>
    cases e with
    | call m => cases h
    | goOn e =>
      obtain ⟨⟨c', op'⟩, hnext, heq⟩ := Option.map_eq_some_iff.1 h
      obtain ⟨rfl, rfl⟩ := Prod.mk.inj heq
      have hmethod : c'.method = c₀.method.inLcn := next_method hnext
      show c₀.inLcn.next e = _
      rw [hnext, TxCall.inLcn, ← hmethod]

section
variable {s : Service} {i : ℕ} {c : TxCall} {tables : Tables}

theorem at_update_self {phase : Phase} :
    At ⟨Function.update s.calls i (some c), tables⟩ phase i ↔ c.phase = phase := by
  simp [At]

theorem at_update_of_ne {phase : Phase} {j : ℕ} (h : j ≠ i) :
    At ⟨Function.update s.calls i (some c), tables⟩ phase j ↔ s.At phase j := by
  simp [At, h]

/-- Until call `i` ends, its phase does not matter to the rows. -/
theorem serverInLcn_running (hbefore : ¬ s.At .returned i ∧ ¬ s.At .threw i)
    (hafter : c.phase ≠ .returned ∧ c.phase ≠ .threw) (rows : List Row) :
    serverInLcn ⟨Function.update s.calls i (some c), tables⟩ rows = s.serverInLcn rows := by
  have hat : ∀ phase, phase = .returned ∨ phase = .threw → ∀ j,
      (At ⟨Function.update s.calls i (some c), tables⟩ phase j ↔ s.At phase j) := by
    intro phase hphase j
    by_cases hj : j = i
    · subst hj
      rw [at_update_self]
      rcases hphase with rfl | rfl
      · exact iff_of_false hafter.1 hbefore.1
      · exact iff_of_false hafter.2 hbefore.2
    · exact at_update_of_ne hj
  simp only [serverInLcn, hat _ (Or.inl rfl), hat _ (Or.inr rfl)]

/-- Call `i` returns: its rows are committed. -/
theorem serverInLcn_returned (hbefore : ¬ s.At .threw i) (hafter : c.phase = .returned)
    (rows : List Row) : serverInLcn ⟨Function.update s.calls i (some c), tables⟩ rows =
      (s.serverInLcn rows).map (Tables.commitRow i) := by
  have hthrew : ∀ j,
      (At ⟨Function.update s.calls i (some c), tables⟩ .threw j ↔ s.At .threw j) := by
    intro j
    by_cases hj : j = i
    · subst hj
      rw [at_update_self, hafter]
      exact iff_of_false (by simp) hbefore
    · exact at_update_of_ne hj
  simp only [serverInLcn, hthrew, List.map_map]
  refine List.map_congr_left fun row _ => ?_
  by_cases hrow : row.call = i
  · simp [Tables.commitRow, hrow, at_update_self, hafter]
  · simp [Tables.commitRow, hrow, at_update_of_ne hrow]

/-- Call `i` throws: its rows are gone. -/
theorem serverInLcn_threw (hafter : c.phase = .threw) (rows : List Row) :
    serverInLcn ⟨Function.update s.calls i (some c), tables⟩ rows =
      (s.serverInLcn rows).filter (·.call ≠ i) := by
  have hthrew : ∀ j, ¬ At ⟨Function.update s.calls i (some c), tables⟩ .threw j ↔
      (j ≠ i ∧ ¬ s.At .threw j) := by
    intro j
    by_cases hj : j = i
    · subst hj
      simp [at_update_self, hafter]
    · simp [at_update_of_ne hj, hj]
  simp only [serverInLcn, hthrew, List.filter_map, List.filter_filter]
  have hfilter : ∀ row : Row, decide (row.call ≠ i ∧ ¬ s.At .threw row.call) =
      (decide (row.call ≠ i) && decide ¬ s.At .threw row.call) := fun row => Bool.decide_and _ _
  simp only [hfilter]
  refine List.map_congr_left fun row hrow => ?_
  have hcall : row.call ≠ i := by
    have := (List.mem_filter.1 hrow).2
    simp only [Bool.and_eq_true, decide_eq_true_eq] at this
    exact this.1
  simp [at_update_of_ne hcall]

end

/-- Rows that are told apart by their flag only look the same under global transactions. -/
theorem serverInLcn_commitRow (s : Service) (i : ℕ) (rows : List Row) :
    s.serverInLcn (rows.map (Tables.commitRow i)) = s.serverInLcn rows := by
  simp only [serverInLcn, List.filter_map, List.map_map, Function.comp_def, Demo.call_commitRow]
  refine List.map_congr_left fun row _ => ?_
  unfold Tables.commitRow
  split <;> rfl

theorem serverInLcn_filter (s : Service) (i : ℕ) (rows : List Row) :
    s.serverInLcn (rows.filter (·.call ≠ i)) = (s.serverInLcn rows).filter (·.call ≠ i) := by
  simp only [serverInLcn, List.filter_map, List.filter_filter, Function.comp_def, Bool.and_comm]

/-- What a step of call `i` does to the tables under either annotation. -/
theorem serverInLcn_apply {s : Service} {i : ℕ} {c : TxCall} {op : TableOp}
    (hbefore : ¬ s.At .returned i ∧ ¬ s.At .threw i)
    (hreturned : c.phase = .returned ↔ op = .commit) (hthrew : c.phase = .threw ↔ op = .rollback)
    (a : Scope) (tables : Tables) :
    serverInLcn ⟨Function.update s.calls i (some c), tables⟩
        (a.apply i s.tables op).test_tx_server =
      (s.inLcn.tables.apply i op).test_tx_server := by
  have hinsert : ∀ rows (row : Row), row.call = i → s.serverInLcn (rows ++ [row]) =
      s.serverInLcn rows ++ [{ row with committed := false }] := by
    rintro rows row rfl
    simp [serverInLcn, hbefore.1, hbefore.2]
  cases op with
  | commit =>
    rw [serverInLcn_returned hbefore.2 (hreturned.2 rfl)]
    cases a with
    | Transactional => rfl
    | LcnTransactional =>
      show List.map _ (s.serverInLcn (s.tables.test_tx_server.map _)) = _
      rw [serverInLcn_commitRow]
      rfl
  | rollback =>
    rw [serverInLcn_threw (hthrew.2 rfl)]
    cases a with
    | Transactional => rfl
    | LcnTransactional =>
      show List.filter _ (s.serverInLcn (s.tables.test_tx_server.filter _)) = _
      rw [serverInLcn_filter, List.filter_filter]
      simp [inLcn, Tables.apply]
  | nothing | insertClient millis =>
    rw [serverInLcn_running hbefore (by simp [hreturned, hthrew])]
    cases a <;> rfl
  | insertServer millis =>
    rw [serverInLcn_running hbefore (by simp [hreturned, hthrew])]
    cases a <;> exact hinsert _ _ rfl

/-- The local insert is handled alike. -/
theorem test_tx_client_apply (i : ℕ) (t : Tables) (a : Scope) (op : TableOp) :
    (a.apply i t op).test_tx_client = (t.apply i op).test_tx_client := by
  cases a <;> cases op <;> rfl

theorem calls_inLcn_update (calls : ℕ → Option TxCall) (i : ℕ) (c : TxCall) :
    (fun j => (Function.update calls i (some c) j).map TxCall.inLcn) =
      Function.update (fun j => (calls j).map TxCall.inLcn) i (some c.inLcn) := by
  funext j
  by_cases hj : j = i
  · subst hj
    simp
  · simp [hj]

/-- Under global transactions the same run goes the same way. -/
theorem simulates_inLcn : Machine.Simulates machine Demo.machine inLcn inLcnLabel where
  init := rfl
  step := by
    rintro ls s ⟨i, e⟩ t - hstep
    obtain ⟨⟨c, op⟩, hadvance, rfl⟩ := Option.map_eq_some_iff.1 hstep
    have hdemo := advance_inLcn hadvance
    obtain ⟨hbefore, hreturned, hthrew⟩ := step_phases (Demo.callStep_of_advance hdemo)
    have hrunning : ¬ s.At .returned i ∧ ¬ s.At .threw i := by
      constructor <;>
      · intro hat
        obtain ⟨c₀, hc₀, hphase⟩ := Option.map_eq_some_iff.1 hat
        have := hbefore c₀.inLcn (by rw [hc₀]; rfl)
        simp [TxCall.inLcn, hphase] at this
    show Option.map _ (Call.advance ((s.calls i).map TxCall.inLcn) e.inLcn) = _
    rw [hdemo]
    refine congrArg some ?_
    show Demo.mk _ _ = Demo.mk _ _
    congr 1
    · exact (calls_inLcn_update s.calls i c).symm
    · show s.inLcn.tables.apply i op = Tables.mk _ _
      rw [serverInLcn_apply hrunning hreturned hthrew, test_tx_client_apply]
      cases op <;> rfl

/-- **Global transactions instead.** Had every method `@LcnTransactional`, the same run would go the
same way: every call gets as far and ends alike, `test_tx_client` is the same, and `test_tx_server`
lacks the rows of the calls that have thrown, and holds the others uncommitted until their call
returns. -/
theorem lcn_instead {ls : List (ℕ × TxEvent)} {s : Service} (h : machine.Reaches ls s) :
    ∃ d, Demo.machine.Reaches (ls.map inLcnLabel) d ∧
      (∀ i, d.calls i = (s.calls i).map TxCall.inLcn) ∧
      d.tables.test_tx_client = s.tables.test_tx_client ∧
      d.tables.test_tx_server =
        (s.tables.test_tx_server.filter fun row => ¬ s.At .threw row.call).map fun row =>
          { row with committed := s.At .returned row.call } :=
  ⟨s.inLcn, simulates_inLcn.reaches h, fun _ => rfl, rfl, rfl⟩

/-- A call of `txExe` leaves a row in `test_tx_server`, which a global transaction takes back. -/
theorem lcn_instead_run :
    let ls : List (ℕ × TxEvent) := [(0, .call .tx), (1, .call .txExe), (0, .goOn (.insertRow 5)),
      (1, .goOn (.insertRow 6)), (1, .goOn .answer), (0, .goOn .answer),
      (1, .goOn (.inserTxClient 7)), (0, .goOn (.inserTxClient 8)), (1, .goOn .leave),
      (0, .goOn .leave)]
    ∃ s, machine.Reaches ls s ∧ s.tables.test_tx_server.length = 2 ∧
      ∃ d, Demo.machine.Reaches (ls.map inLcnLabel) d ∧
        (∀ i, d.calls i = (s.calls i).map TxCall.inLcn) ∧
        d.tables.test_tx_client = s.tables.test_tx_client ∧
        d.tables.test_tx_server =
          (s.tables.test_tx_server.filter fun row => ¬ s.At .threw row.call).map fun row =>
            { row with committed := s.At .returned row.call } := by
  intro ls
  have hrun : ∃ s, machine.Reaches ls s ∧ s.tables.test_tx_server.length = 2 := ⟨_, rfl, rfl⟩
  obtain ⟨s, hs, hlength⟩ := hrun
  exact ⟨s, hs, hlength, lcn_instead hs⟩

/-! ## The rows of each call -/

/-- A request is carried out on demo-server. -/
def insertsRow : TxEvent → Bool
  | .goOn (.insertRow _) => true
  | _ => false

/-- How many requests of call `i` have been carried out. -/
def inserts (i : ℕ) (ls : List (ℕ × TxEvent)) : ℕ :=
  ls.countP fun l => l.1 = i && insertsRow l.2

theorem inserts_snoc (i : ℕ) (ls : List (ℕ × TxEvent)) (l : ℕ × TxEvent) :
    inserts i (ls ++ [l]) = inserts i ls + if l.1 = i ∧ insertsRow l.2 then 1 else 0 := by
  simp [inserts, List.countP_cons]

/-- How many requests can have been carried out: at most one for each attempt. -/
def Attempted (n : ℕ) : Phase → Prop
  | .requested attempt => attempt ≤ 1 ∧ n ≤ attempt
  | .answered attempt inserted => attempt ≤ 1 ∧ n ≤ attempt + 1 ∧ (inserted = true → 1 ≤ n)
  | .inserting | .ending | .returned => 1 ≤ n ∧ n ≤ 2
  | .failing | .threw => n ≤ 2

theorem inserted_of_step {call : Option Call} {e : CallEvent} {c : Call} {op : TableOp}
    (hstep : Demo.CallStep call e c op) :
    (if insertsRow (.goOn e) then 1 else 0) = op.inserted := by
  cases hstep <;> rfl

/-- How many rows the call has in `test_tx_client`. -/
def clientRows : Phase → ℕ
  | .ending | .returned => 1
  | _ => 0

/-- How many rows the call has in `test_tx_server`. -/
def serverRows (n : ℕ) (c : TxCall) : ℕ :=
  if c.method.scope = .LcnTransactional ∧ c.phase = .threw then 0 else n

/-- So many rows of call `i`, all of them committed or none. -/
def Rows (i k : ℕ) (committed : Bool) (rows : List Row) : Prop :=
  rows.length = k ∧ ∀ row ∈ rows, row.call = i ∧ row.committed = committed

/-- The rows of call `i`, `n` of whose requests have been carried out. -/
structure Accounted (i n : ℕ) (c : TxCall) (t : Tables) : Prop where
  attempted : Attempted n c.phase
  server : Rows i (serverRows n c)
    (c.method.scope = .Transactional ∨ c.phase = .returned) t.test_tx_server
  client : Rows i (clientRows c.phase) (c.phase = .returned) t.test_tx_client

theorem lost_attempted {n attempt : ℕ} {c : Call} (hattempt : attempt ≤ 1) (hn : n ≤ attempt + 1) :
    Attempted n (c.lost attempt).phase := by
  rcases Nat.le_one_iff_eq_zero_or_eq_one.1 hattempt with rfl | rfl
  · exact ⟨Nat.le_refl 1, hn⟩
  · exact hn

/-- One attempt carries out one request at most. -/
theorem Attempted.step {call c : Call} {e : CallEvent} {op : TableOp} {n : ℕ}
    (hstep : Demo.CallStep (some call) e c op) (h : Attempted n call.phase) :
    Attempted (n + op.inserted) c.phase := by
  cases hstep with
  | requestLost m attempt => exact lost_attempted h.1 (Nat.le_succ_of_le h.2)
  | answerLost m attempt inserted => exact lost_attempted h.1 h.2.1
  | insertRow m attempt millis =>
    obtain ⟨hattempt, hn⟩ := h
    exact ⟨hattempt, Nat.succ_le_succ hn, fun _ => Nat.succ_le_succ (Nat.zero_le n)⟩
  | insertRowFails m attempt =>
    obtain ⟨hattempt, hn⟩ := h
    exact ⟨hattempt, Nat.le_succ_of_le hn, by simp⟩
  | answer m attempt =>
    obtain ⟨hattempt, hn, hinserted⟩ := h
    exact ⟨hinserted rfl, hn.trans (by omega)⟩
  | failureAnswer m attempt =>
    obtain ⟨hattempt, hn, -⟩ := h
    exact hn.trans (by omega)
  | inserTxClient | txMM => exact h
  | inserTxClientFails | txMMExe => exact h.2
  | failing => exact h

theorem clientRows_step {call c : Call} {e : CallEvent} {op : TableOp}
    (hstep : Demo.CallStep (some call) e c op) :
    clientRows c.phase = op.clientRows (clientRows call.phase) := by
  cases hstep with
  | requestLost m n | answerLost m n =>
    by_cases h : ribbon.resends true n <;> simp [Call.lost, h, clientRows, TableOp.clientRows]
  | _ => rfl

section
variable {i k : ℕ} {committed : Bool} {rows : List Row}

theorem Rows.insert (h : Rows i k committed rows) {row : Row} (hcall : row.call = i)
    (hcommitted : row.committed = committed) : Rows i (k + 1) committed (rows ++ [row]) := by
  refine ⟨by rw [List.length_append, h.1]; rfl, fun row' hrow => ?_⟩
  rcases List.mem_append.1 hrow with hrow | hrow
  · exact h.2 row' hrow
  · obtain rfl := List.mem_singleton.1 hrow
    exact ⟨hcall, hcommitted⟩

theorem Rows.commit (h : Rows i k committed rows) :
    Rows i k true (rows.map (Tables.commitRow i)) := by
  refine ⟨(List.length_map _).trans h.1, fun row hrow => ?_⟩
  obtain ⟨old, hold, rfl⟩ := List.mem_map.1 hrow
  have hcall := (h.2 old hold).1
  rw [Tables.commitRow, if_pos hcall]
  exact ⟨hcall, rfl⟩

theorem Rows.rollback (h : Rows i k committed rows) (committed' : Bool) :
    Rows i 0 committed' (rows.filter (·.call ≠ i)) := by
  have hnone : rows.filter (·.call ≠ i) = [] :=
    List.filter_eq_nil_iff.2 fun row hrow => by simp [(h.2 row hrow).1]
  rw [hnone]
  exact ⟨rfl, by simp⟩

end

section
variable {i n k : ℕ} {m : TxMethod} {p p' : Phase} {t : Tables} {op : TableOp}

/-- What an event does to the rows of `test_tx_server`. -/
theorem Rows.server {a : Scope} (h : Rows i n (a = .Transactional) t.test_tx_server)
    (op : TableOp) :
    Rows i (if a = .LcnTransactional ∧ op = .rollback then 0 else n + op.inserted)
      (a = .Transactional ∨ op = .commit) (a.apply i t op).test_tx_server := by
  cases a with
  | Transactional =>
    cases op with
    | nothing | insertClient millis | commit | rollback => exact h
    | insertServer millis => exact h.insert rfl rfl
  | LcnTransactional =>
    cases op with
    | nothing | insertClient millis => exact h
    | insertServer millis => exact h.insert rfl rfl
    | commit => exact h.commit
    | rollback => exact h.rollback _

/-- What an event does to the rows of `test_tx_client`. -/
theorem Rows.client (h : Rows i k false t.test_tx_client) (a : Scope) (op : TableOp) :
    Rows i (op.clientRows k) (op = .commit) (a.apply i t op).test_tx_client := by
  rw [test_tx_client_apply]
  cases op with
  | nothing | insertServer millis => exact h
  | insertClient millis => exact h.insert rfl rfl
  | commit => exact h.commit
  | rollback => exact h.rollback _

/-- What a step of a call does to its rows. -/
theorem Accounted.step (h : Accounted i n ⟨m, p⟩ t) (hbefore : p ≠ .returned ∧ p ≠ .threw)
    (hreturned : p' = .returned ↔ op = .commit) (hthrew : p' = .threw ↔ op = .rollback)
    (hattempted : Attempted (n + op.inserted) p')
    (hclient : clientRows p' = op.clientRows (clientRows p)) :
    Accounted i (n + op.inserted) ⟨m, p'⟩ (m.scope.apply i t op) := by
  have hserverRows : Rows i n (m.scope = .Transactional) t.test_tx_server := by
    simpa [serverRows, hbefore] using h.server
  have hclientRows : Rows i (clientRows p) false t.test_tx_client := by
    simpa [hbefore.1] using h.client
  refine ⟨hattempted, ?_, ?_⟩
  · simpa only [serverRows, hreturned, hthrew] using hserverRows.server op
  · simpa only [hclient, hreturned] using hclientRows.client m.scope op

end

/-- On the rows of a call, its own events do what they do to the tables. -/
theorem ofCall_apply_self (i : ℕ) (t : Tables) (a : Scope) (op : TableOp) :
    (a.apply i t op).ofCall i = a.apply i (t.ofCall i) op := by
  cases a with
  | LcnTransactional => exact Demo.ofCall_apply_self i t op
  | Transactional =>
    have hclient := congrArg Tables.test_tx_client (Demo.ofCall_apply_self i t op)
    cases op with
    | insertServer millis => simp [Scope.apply, Tables.ofCall, Tables.newRow]
    | nothing | insertClient millis | commit | rollback => exact congrArg (Tables.mk _) hclient

/-- The events of one call leave the rows of the others alone. -/
theorem ofCall_apply_other {i j : ℕ} (h : j ≠ i) (t : Tables) (a : Scope) (op : TableOp) :
    (a.apply j t op).ofCall i = t.ofCall i := by
  cases a with
  | LcnTransactional => exact Demo.ofCall_apply_other h t op
  | Transactional =>
    have hclient := congrArg Tables.test_tx_client (Demo.ofCall_apply_other h t op)
    cases op with
    | insertServer millis => simp [Scope.apply, Tables.ofCall, Tables.newRow, h]
    | nothing | insertClient millis | commit | rollback => exact congrArg (Tables.mk _) hclient

/-- A call that has not been made has no rows. -/
def Ledger (i n : ℕ) (t : Tables) : Option TxCall → Prop
  | none => n = 0 ∧ t = Tables.empty
  | some c => Accounted i n c t

theorem Ledger.advance {i n : ℕ} {t : Tables} {call : Option TxCall} {e : TxEvent} {c : TxCall}
    {op : TableOp} (h : Ledger i n t call) (hadvance : TxCall.advance call e = some (c, op)) :
    Accounted i (n + if insertsRow e then 1 else 0) c (c.method.scope.apply i t op) := by
  cases call with
  | none =>
    obtain ⟨rfl, rfl⟩ := h
    cases e with
    | goOn e => cases hadvance
    | call m =>
      cases hadvance
      have happly : m.scope.apply i Tables.empty .nothing = Tables.empty := by
        cases m.scope <;> rfl
      have hnone : ∀ committed, Rows i 0 committed [] := fun committed => ⟨rfl, by simp⟩
      have hserver : serverRows 0 ⟨m, .requested 0⟩ = 0 := by simp [serverRows]
      rw [happly]
      refine ⟨⟨Nat.zero_le 1, Nat.le_refl 0⟩, ?_, hnone _⟩
      show Rows i (serverRows 0 ⟨m, .requested 0⟩) _ []
      rw [hserver]
      exact hnone _
  | some c₀ =>
    cases e with
    | call m => cases hadvance
    | goOn e =>
      obtain ⟨⟨c', op'⟩, hnext, heq⟩ := Option.map_eq_some_iff.1 hadvance
      obtain ⟨rfl, rfl⟩ := Prod.mk.inj heq
      have hstep : Demo.CallStep (some c₀.inLcn) e c' op' := Demo.callStep_of_advance hnext
      obtain ⟨hbefore, hreturned, hthrew⟩ := step_phases hstep
      have hinserted : (if insertsRow (.goOn e) then 1 else 0) = op'.inserted :=
        inserted_of_step hstep
      rw [hinserted]
      exact Accounted.step h (hbefore _ rfl) hreturned hthrew (Attempted.step hstep h.attempted)
        (clientRows_step hstep)

/-- The rows of every call are accounted for throughout a run. -/
theorem ledger_reaches {ls : List (ℕ × TxEvent)} {s : Service} (h : machine.Reaches ls s) (i : ℕ) :
    Ledger i (inserts i ls) (s.tables.ofCall i) (s.calls i) := by
  refine Machine.history_invariant (M := machine)
    (I := fun ls s => Ledger i (inserts i ls) (s.tables.ofCall i) (s.calls i)) ⟨rfl, rfl⟩ ?_ h
  rintro ls s ⟨j, e⟩ t - ih hstep
  obtain ⟨⟨c, op⟩, hadvance, rfl⟩ := Option.map_eq_some_iff.1 hstep
  rw [inserts_snoc]
  by_cases hj : j = i
  · subst hj
    simpa [Ledger, ofCall_apply_self] using ih.advance hadvance
  · simpa [hj, Ne.symm hj, ofCall_apply_other hj] using ih

theorem Rows.committedRows {i k : ℕ} {committed : Bool} {rows : List Row}
    (h : Rows i k committed (rows.filter (·.call = i))) :
    Demo.committedRows i rows = if committed then k else 0 := by
  rw [← Demo.committedRows_filter]
  cases committed with
  | true => rw [Demo.committedRows_eq_length h.2, h.1, if_pos rfl]
  | false =>
    rw [Demo.committedRows, List.countP_eq_zero.2]
    · rfl
    · intro row hrow
      simp [h.2 row hrow]

theorem Attempted.le_two {n : ℕ} {p : Phase} (h : Attempted n p) : n ≤ 2 := by
  cases p with
  | requested attempt => exact h.2.trans (by have := h.1; omega)
  | answered attempt inserted => exact h.2.1.trans (by have := h.1; omega)
  | inserting | ending | returned => exact h.2
  | failing | threw => exact h

/-- A call that has ended leaves committed rows only. -/
theorem Accounted.committed {i n : ℕ} {c : TxCall} {t : Tables} (h : Accounted i n c t)
    (hended : c.phase = .returned ∨ c.phase = .threw) :
    ∀ row ∈ t.test_tx_server ++ t.test_tx_client, row.committed = true := by
  intro row hrow
  obtain ⟨-, hserver, hclient⟩ := h
  rcases hended with hreturned | hthrew
  · rcases List.mem_append.1 hrow with hrow | hrow
    · simpa [hreturned] using (hserver.2 row hrow).2
    · simpa [hreturned] using (hclient.2 row hrow).2
  · have hclientNone : t.test_tx_client = [] :=
      List.length_eq_zero_iff.1 (by simpa [hthrew, clientRows] using hclient.1)
    rw [hclientNone, List.append_nil] at hrow
    cases hscope : c.method.scope with
    | Transactional => simpa [hscope] using (hserver.2 row hrow).2
    | LcnTransactional =>
      have hserverNone : t.test_tx_server = [] :=
        List.length_eq_zero_iff.1 (by simpa [serverRows, hscope, hthrew] using hserver.1)
      simp [hserverNone] at hrow

theorem paired_iff_phase {i : ℕ} {c : TxCall} {t : Tables} :
    Demo.Paired i (some c.inLcn) t ↔
      (c.phase = .returned →
        Demo.committedRows i t.test_tx_server = 1 ∧ Demo.committedRows i t.test_tx_client = 1) ∧
      (c.phase = .threw →
        Demo.committedRows i t.test_tx_server = 0 ∧ Demo.committedRows i t.test_tx_client = 0) := by
  refine ⟨fun h => h _ rfl, ?_⟩
  rintro h c' hc'
  obtain rfl := Option.some.inj hc'
  exact h

/-- **The rows of every call.** At any moment of any run, the committed rows of a call in
`test_tx_server` are the requests that were carried out for it, whether it has ended, and how, or
not, where it has no global transaction; under a global transaction only a call that has returned
has any. In `test_tx_client` a call has one when it has returned. No call that has ended has left
another row, committed or not; and it is paired exactly when it has returned with one request
carried out, or has thrown with none or under a global transaction. -/
theorem rows_accounted {ls : List (ℕ × TxEvent)} {s : Service} (h : machine.Reaches ls s) {i : ℕ}
    {c : TxCall} (hc : s.calls i = some c) :
    Demo.committedRows i s.tables.test_tx_server =
        (if c.method.scope = .Transactional ∨ c.phase = .returned then inserts i ls else 0) ∧
      Demo.committedRows i s.tables.test_tx_client = (if c.phase = .returned then 1 else 0) ∧
      (c.phase = .returned ∨ c.phase = .threw →
        ∀ row ∈ s.tables.test_tx_server ++ s.tables.test_tx_client, row.call = i →
          row.committed = true) ∧
      inserts i ls ≤ 2 ∧
      (Demo.Paired i (some c.inLcn) s.tables ↔
        (c.phase = .returned → inserts i ls = 1) ∧
        (c.phase = .threw → c.method.scope = .LcnTransactional ∨ inserts i ls = 0)) := by
  have hledger := ledger_reaches h i
  rw [hc] at hledger
  have hserverRows : Demo.committedRows i s.tables.test_tx_server =
      if c.method.scope = .Transactional ∨ c.phase = .returned then inserts i ls else 0 := by
    rw [hledger.server.committedRows]
    by_cases hcommitted : c.method.scope = .Transactional ∨ c.phase = .returned
    · have hkept : ¬ (c.method.scope = .LcnTransactional ∧ c.phase = .threw) := by
        rintro ⟨hlcn, hthrew⟩
        simp [hlcn, hthrew] at hcommitted
      simp [hcommitted, serverRows, hkept]
    · simp [hcommitted]
  have hclientRows : Demo.committedRows i s.tables.test_tx_client =
      if c.phase = .returned then 1 else 0 := by
    rw [hledger.client.committedRows]
    by_cases hreturned : c.phase = .returned <;> simp [hreturned, clientRows]
  refine ⟨hserverRows, hclientRows, ?_, hledger.attempted.le_two, ?_⟩
  · intro hended row hrow hcall
    refine hledger.committed hended row ?_
    simpa [Tables.ofCall, hcall] using hrow
  · rw [paired_iff_phase, hserverRows, hclientRows]
    refine and_congr (forall_congr' fun hreturned => ?_) (forall_congr' fun hthrew => ?_)
    · simp [hreturned]
    · cases hscope : c.method.scope <;> simp [hthrew]

/-- A call of `txExe` that resends its request leaves two rows. -/
theorem rows_accounted_run :
    let ls : List (ℕ × TxEvent) := [(3, .call .txExe), (3, .goOn (.insertRow 5)),
      (3, .goOn .answerLost), (3, .goOn (.insertRow 6)), (3, .goOn .answer),
      (3, .goOn (.inserTxClient 7)), (3, .goOn .leave)]
    ∃ s, machine.Reaches ls s ∧ s.calls 3 = some ⟨.txExe, .threw⟩ ∧ inserts 3 ls = 2 ∧
      Demo.committedRows 3 s.tables.test_tx_server = 2 := by
  intro ls
  have hrun : ∃ s, machine.Reaches ls s ∧ s.calls 3 = some ⟨.txExe, .threw⟩ := ⟨_, rfl, rfl⟩
  obtain ⟨s, hs, hcall⟩ := hrun
  exact ⟨s, hs, hcall, by decide, (rows_accounted hs hcall).1⟩

end Service

end TestClientService

end MmtxSample
