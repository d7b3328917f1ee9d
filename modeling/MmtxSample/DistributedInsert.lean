import MmtxSample.Lib.Machine

/-!
# The distributed insert

`TestClientService.txMM` and `txMMExe` insert a row on each of two services: first one into
`test_tx_server`, by a GET of `/insertRow` on demo-server, then one into `test_tx_client`. They run
under a global transaction that commits every insert made on its behalf when the method returns, and
rolls all of them back when it throws.

Any number of calls run at once. The network may lose any request and any answer, and every insert
may fail. Ribbon answers a loss by sending the GET once more (`MaxAutoRetriesNextServer`), also when
demo-server has done the insert and only the answer was lost. Then the insert is done twice, and
both rows are branches of the same transaction.

Calls do not disturb each other: what a call and its rows have become is decided by its own events
(`project`). So the verdict is one about single calls, `paired_iff_of_call`, and `paired_iff` states
it for the system: every call that has ended has left one committed row in each table or none in
either, unless some call has lost the answer to an insert that was done, and has then succeeded.
-/

namespace MmtxSample

open TransitionSystem

/-- Ribbon's settings for a client. -/
structure Ribbon where
  MaxAutoRetries : ℕ
  MaxAutoRetriesNextServer : ℕ
  OkToRetryOnAllOperations : Bool
  deriving DecidableEq, Repr

/-- Whether a request is sent again after its attempt number `attempt` (from 0 on) has failed. -/
def Ribbon.resends (r : Ribbon) (isGet : Bool) (attempt : ℕ) : Bool :=
  (isGet || r.OkToRetryOnAllOperations) &&
    decide (attempt + 1 < (r.MaxAutoRetries + 1) * (r.MaxAutoRetriesNextServer + 1))

/-- The settings of demo-client. -/
def ribbon : Ribbon := ⟨0, 1, false⟩

/-- A row of `test_tx_server` or `test_tx_client`, with the transaction it is a branch of. -/
structure Row where
  data : String
  status : String
  call : ℕ
  committed : Bool
  deriving DecidableEq, Repr

structure Tables where
  test_tx_server : List Row
  test_tx_client : List Row
  deriving DecidableEq, Repr

/-- The methods of `TestClientService` under a global transaction. -/
inductive Method
  | txMM
  | txMMExe
  deriving DecidableEq, Repr

/-- How far a call has come. -/
inductive Phase
  /-- `remoteClient.insertRow()`: the request is on its way -/
  | requested (attempt : ℕ)
  /-- the answer is on its way: the row is inserted, or demo-server has thrown -/
  | answered (attempt : ℕ) (inserted : Bool)
  /-- before the insert into `test_tx_client` -/
  | inserting
  /-- before `return true` or the `RuntimeException` at the end -/
  | ending
  /-- on the way out with an exception -/
  | failing
  | returned
  | threw
  deriving DecidableEq, Repr

structure Call where
  method : Method
  phase : Phase
  deriving DecidableEq, Repr

/-- What happens to a call. The inserts carry `System.currentTimeMillis()`. -/
inductive CallEvent
  | call (method : Method)
  | requestLost
  | insertRow (millis : ℕ)
  | insertRowFails
  | answerLost
  | answer
  | inserTxClient (millis : ℕ)
  | inserTxClientFails
  | leave
  deriving DecidableEq, Repr

/-- What an event does to the tables. -/
inductive TableOp
  | nothing
  | insertServer (millis : ℕ)
  | insertClient (millis : ℕ)
  | commit
  | rollback
  deriving DecidableEq, Repr

/-- A request or its answer is lost: another attempt, or an exception. -/
def Call.lost (c : Call) (attempt : ℕ) : Call :=
  { c with phase := if ribbon.resends true attempt then .requested (attempt + 1) else .failing }

/-- The next step of a call. -/
def Call.next (c : Call) : CallEvent → Option (Call × TableOp)
  | .call _ => none
  | .requestLost =>
    match c.phase with
    | .requested attempt => some (c.lost attempt, .nothing)
    | _ => none
  | .insertRow millis =>
    match c.phase with
    | .requested attempt => some ({ c with phase := .answered attempt true }, .insertServer millis)
    | _ => none
  | .insertRowFails =>
    match c.phase with
    | .requested attempt => some ({ c with phase := .answered attempt false }, .nothing)
    | _ => none
  | .answerLost =>
    match c.phase with
    | .answered attempt _ => some (c.lost attempt, .nothing)
    | _ => none
  | .answer =>
    match c.phase with
    | .answered _ true => some ({ c with phase := .inserting }, .nothing)
    | .answered _ false => some ({ c with phase := .failing }, .nothing)
    | _ => none
  | .inserTxClient millis =>
    match c.phase with
    | .inserting => some ({ c with phase := .ending }, .insertClient millis)
    | _ => none
  | .inserTxClientFails =>
    match c.phase with
    | .inserting => some ({ c with phase := .failing }, .nothing)
    | _ => none
  | .leave =>
    match c.phase with
    | .ending =>
      match c.method with
      | .txMM => some ({ c with phase := .returned }, .commit)
      | .txMMExe => some ({ c with phase := .threw }, .rollback)
    | .failing => some ({ c with phase := .threw }, .rollback)
    | _ => none

/-- A call that has not been made yet can be made. -/
def Call.advance (c : Option Call) (e : CallEvent) : Option (Call × TableOp) :=
  match c, e with
  | none, .call method => some (⟨method, .requested 0⟩, .nothing)
  | none, _ => none
  | some c, e => c.next e

namespace Tables

def newRow (i millis : ℕ) : Row := ⟨"data-" ++ toString millis, "1", i, false⟩

/-- A row of a committed transaction. -/
def commitRow (i : ℕ) (row : Row) : Row :=
  if row.call = i then { row with committed := true } else row

/-- Do to both tables what an event of call `i` does. -/
def apply (i : ℕ) (t : Tables) : TableOp → Tables
  | .nothing => t
  | .insertServer millis => { t with test_tx_server := t.test_tx_server ++ [newRow i millis] }
  | .insertClient millis => { t with test_tx_client := t.test_tx_client ++ [newRow i millis] }
  | .commit => ⟨t.test_tx_server.map (commitRow i), t.test_tx_client.map (commitRow i)⟩
  | .rollback => ⟨t.test_tx_server.filter (·.call ≠ i), t.test_tx_client.filter (·.call ≠ i)⟩

/-- The rows of one call. -/
def ofCall (i : ℕ) (t : Tables) : Tables :=
  ⟨t.test_tx_server.filter (·.call = i), t.test_tx_client.filter (·.call = i)⟩

def empty : Tables := ⟨[], []⟩

end Tables

/-- All calls and the tables they share. -/
structure Demo where
  calls : ℕ → Option Call
  tables : Tables

namespace Demo

/-- Call `i` takes a step. -/
def step (s : Demo) (l : ℕ × CallEvent) : Option Demo :=
  (Call.advance (s.calls l.1) l.2).map fun (c, op) =>
    ⟨Function.update s.calls l.1 (some c), s.tables.apply l.1 op⟩

def machine : Machine Demo (ℕ × CallEvent) := ⟨⟨fun _ => none, Tables.empty⟩, step⟩

/-- What has happened to call `i`. -/
def script (i : ℕ) (ls : List (ℕ × CallEvent)) : List CallEvent :=
  (ls.filter (·.1 = i)).map (·.2)

/-! ## One call by itself -/

/-- A call and its rows. -/
structure Single where
  call : Option Call
  tables : Tables

def single (i : ℕ) : Machine Single CallEvent where
  init := ⟨none, Tables.empty⟩
  step s e := (Call.advance s.call e).map fun (c, op) => ⟨some c, s.tables.apply i op⟩

/-- The part of the system that belongs to call `i`. -/
def ofCall (i : ℕ) (s : Demo) : Single := ⟨s.calls i, s.tables.ofCall i⟩

theorem call_commitRow (i : ℕ) (row : Row) : (Tables.commitRow i row).call = row.call := by
  unfold Tables.commitRow
  split <;> rfl

theorem filter_map_commitRow (i j : ℕ) (rows : List Row) :
    (rows.map (Tables.commitRow j)).filter (·.call = i) =
      (rows.filter (·.call = i)).map (Tables.commitRow j) := by
  rw [List.filter_map]
  congr 2
  funext row
  simp [call_commitRow]

/-- On the rows of a call, its own events do what they do to the tables. -/
theorem ofCall_apply_self (i : ℕ) (t : Tables) (op : TableOp) :
    (t.apply i op).ofCall i = (t.ofCall i).apply i op := by
  cases op with
  | nothing => rfl
  | insertServer millis => simp [Tables.apply, Tables.ofCall, Tables.newRow]
  | insertClient millis => simp [Tables.apply, Tables.ofCall, Tables.newRow]
  | commit => simp only [Tables.apply, Tables.ofCall, filter_map_commitRow]
  | rollback => simp [Tables.apply, Tables.ofCall, List.filter_filter, Bool.and_comm]

/-- The events of one call leave the rows of the others alone. -/
theorem ofCall_apply_other {i j : ℕ} (h : j ≠ i) (t : Tables) (op : TableOp) :
    (t.apply j op).ofCall i = t.ofCall i := by
  have hcommit : ∀ rows : List Row, (rows.map (Tables.commitRow j)).filter (·.call = i) =
      rows.filter (·.call = i) := by
    intro rows
    rw [filter_map_commitRow]
    refine (List.map_congr_left ?_).trans (List.map_id _)
    intro row hrow
    have hcall : row.call = i := by simpa using (List.mem_filter.1 hrow).2
    rw [Tables.commitRow, if_neg (hcall ▸ h.symm)]
    rfl
  have hrollback : ∀ rows : List Row, (rows.filter (·.call ≠ j)).filter (·.call = i) =
      rows.filter (·.call = i) := by
    intro rows
    rw [List.filter_filter]
    refine List.filter_congr ?_
    intro row _
    by_cases hcall : row.call = i <;> simp [hcall, h.symm]
  cases op with
  | nothing => rfl
  | insertServer millis => simp [Tables.apply, Tables.ofCall, Tables.newRow, h]
  | insertClient millis => simp [Tables.apply, Tables.ofCall, Tables.newRow, h]
  | commit => simp only [Tables.apply, Tables.ofCall, hcommit]
  | rollback => simp only [Tables.apply, Tables.ofCall, hrollback]

/-- **Calls do not disturb each other.** Whatever the others do, a call and its rows are what its
own events make of them. -/
theorem project {ls : List (ℕ × CallEvent)} {s : Demo} (h : machine.Reaches ls s) (i : ℕ) :
    (single i).Reaches (script i ls) (s.ofCall i) := by
  refine Machine.history_invariant (M := machine)
    (I := fun ls s => (single i).Reaches (script i ls) (s.ofCall i)) ?_ ?_ h
  · exact Machine.reaches_nil.2 rfl
  · rintro ls s ⟨j, e⟩ t - ih hstep
    obtain ⟨⟨c, op⟩, hadvance, rfl⟩ := Option.map_eq_some_iff.1 hstep
    show (single i).Reaches (script i (ls ++ [(j, e)]))
      (ofCall i ⟨Function.update s.calls j (some c), s.tables.apply j op⟩)
    by_cases hj : j = i
    · subst hj
      have hscript : script j (ls ++ [(j, e)]) = script j ls ++ [e] := by simp [script]
      have hafter : ofCall j ⟨Function.update s.calls j (some c), s.tables.apply j op⟩ =
          ⟨some c, (s.tables.ofCall j).apply j op⟩ := by simp [ofCall, ofCall_apply_self]
      have hsingle : (single j).step (s.ofCall j) e =
          some ⟨some c, (s.tables.ofCall j).apply j op⟩ := by
        show Option.map _ (Call.advance (s.calls j) e) = _
        rw [hadvance]
        rfl
      rw [hscript, hafter, Machine.reaches_snoc]
      exact ⟨s.ofCall j, ih, hsingle⟩
    · have hscript : script i (ls ++ [(j, e)]) = script i ls := by simp [script, hj]
      have hafter : ofCall i ⟨Function.update s.calls j (some c), s.tables.apply j op⟩ =
          s.ofCall i := by simp [ofCall, ofCall_apply_other hj, Ne.symm hj]
      rw [hscript, hafter]
      exact ih

/-! ## What becomes of one call -/

/-- The steps of a call, one by one, with what they do to the tables. -/
inductive CallStep : Option Call → CallEvent → Call → TableOp → Prop
  | call (m : Method) : CallStep none (.call m) ⟨m, .requested 0⟩ .nothing
  | requestLost (m : Method) (n : ℕ) :
    CallStep (some ⟨m, .requested n⟩) .requestLost (Call.lost ⟨m, .requested n⟩ n) .nothing
  | insertRow (m : Method) (n millis : ℕ) :
    CallStep (some ⟨m, .requested n⟩) (.insertRow millis) ⟨m, .answered n true⟩
      (.insertServer millis)
  | insertRowFails (m : Method) (n : ℕ) :
    CallStep (some ⟨m, .requested n⟩) .insertRowFails ⟨m, .answered n false⟩ .nothing
  | answerLost (m : Method) (n : ℕ) (inserted : Bool) :
    CallStep (some ⟨m, .answered n inserted⟩) .answerLost (Call.lost ⟨m, .answered n inserted⟩ n)
      .nothing
  | answer (m : Method) (n : ℕ) :
    CallStep (some ⟨m, .answered n true⟩) .answer ⟨m, .inserting⟩ .nothing
  | failureAnswer (m : Method) (n : ℕ) :
    CallStep (some ⟨m, .answered n false⟩) .answer ⟨m, .failing⟩ .nothing
  | inserTxClient (m : Method) (millis : ℕ) :
    CallStep (some ⟨m, .inserting⟩) (.inserTxClient millis) ⟨m, .ending⟩ (.insertClient millis)
  | inserTxClientFails (m : Method) :
    CallStep (some ⟨m, .inserting⟩) .inserTxClientFails ⟨m, .failing⟩ .nothing
  | txMM : CallStep (some ⟨.txMM, .ending⟩) .leave ⟨.txMM, .returned⟩ .commit
  | txMMExe : CallStep (some ⟨.txMMExe, .ending⟩) .leave ⟨.txMMExe, .threw⟩ .rollback
  | failing (m : Method) : CallStep (some ⟨m, .failing⟩) .leave ⟨m, .threw⟩ .rollback

theorem callStep_of_advance {call : Option Call} {e : CallEvent} {c : Call} {op : TableOp}
    (h : Call.advance call e = some (c, op)) : CallStep call e c op := by
  cases call with
  | none =>
    cases e with
    | call m => cases h; exact .call m
    | _ => cases h
  | some c₀ =>
    obtain ⟨m, phase⟩ := c₀
    cases phase with
    | requested n =>
      cases e with
      | requestLost => cases h; exact .requestLost m n
      | insertRow millis => cases h; exact .insertRow m n millis
      | insertRowFails => cases h; exact .insertRowFails m n
      | _ => cases h
    | answered n inserted =>
      cases e with
      | answerLost => cases h; exact .answerLost m n inserted
      | answer =>
        cases inserted with
        | true => cases h; exact .answer m n
        | false => cases h; exact .failureAnswer m n
      | _ => cases h
    | inserting =>
      cases e with
      | inserTxClient millis => cases h; exact .inserTxClient m millis
      | inserTxClientFails => cases h; exact .inserTxClientFails m
      | _ => cases h
    | ending =>
      cases e with
      | leave =>
        cases m with
        | txMM => cases h; exact .txMM
        | txMMExe => cases h; exact .txMMExe
      | _ => cases h
    | failing =>
      cases e with
      | leave => cases h; exact .failing m
      | _ => cases h
    | returned | threw => cases e <;> cases h

/-- The events of the attempts before attempt number `attempt`, all lost, and how many of them have
inserted a row. -/
inductive LostAttempts : ℕ → List CallEvent → ℕ → Prop
  | none : LostAttempts 0 [] 0
  | request : LostAttempts 1 [.requestLost] 0
  | failure : LostAttempts 1 [.insertRowFails, .answerLost] 0
  | answer (millis : ℕ) : LostAttempts 1 [.insertRow millis, .answerLost] 1

/-- The tables of a running call: so many rows in each, none committed. -/
def Running (i : ℕ) (t : Tables) (servers clients : ℕ) : Prop :=
  t.test_tx_server.length = servers ∧ t.test_tx_client.length = clients ∧
    ∀ row ∈ t.test_tx_server ++ t.test_tx_client, row.call = i ∧ row.committed = false

/-- What a call in a given phase has gone through, and its rows. -/
def Shape (i : ℕ) (es : List CallEvent) (v : Single) : Prop :=
  match v.call with
  | none => es = [] ∧ v.tables = Tables.empty
  | some ⟨m, .requested n⟩ => ∃ lost k, LostAttempts n lost k ∧ es = .call m :: lost ∧
      Running i v.tables k 0
  | some ⟨m, .answered n true⟩ => ∃ lost k t, LostAttempts n lost k ∧
      es = .call m :: lost ++ [.insertRow t] ∧ Running i v.tables (k + 1) 0
  | some ⟨m, .answered n false⟩ => ∃ lost k, LostAttempts n lost k ∧
      es = .call m :: lost ++ [.insertRowFails] ∧ Running i v.tables k 0
  | some ⟨m, .inserting⟩ => ∃ n lost k t, LostAttempts n lost k ∧
      es = .call m :: lost ++ [.insertRow t, .answer] ∧ Running i v.tables (k + 1) 0
  | some ⟨m, .ending⟩ => ∃ n lost k t t', LostAttempts n lost k ∧
      es = .call m :: lost ++ [.insertRow t, .answer, .inserTxClient t'] ∧
      Running i v.tables (k + 1) 1
  | some ⟨_, .failing⟩ => ∃ k l, Running i v.tables k l
  | some ⟨m, .returned⟩ => m = .txMM ∧ ∃ n lost k t t', LostAttempts n lost k ∧
      es = .call m :: lost ++ [.insertRow t, .answer, .inserTxClient t', .leave] ∧
      v.tables.test_tx_server.length = k + 1 ∧ v.tables.test_tx_client.length = 1 ∧
      ∀ row ∈ v.tables.test_tx_server ++ v.tables.test_tx_client,
        row.call = i ∧ row.committed = true
  | some ⟨_, .threw⟩ => v.tables = Tables.empty

section
variable {i : ℕ} {t : Tables} {servers clients : ℕ}

/-- Either insert adds one row, which is not committed yet. -/
theorem uncommitted_insert {millis : ℕ} {op : TableOp}
    (hop : op = .insertServer millis ∨ op = .insertClient millis)
    (h : ∀ row ∈ t.test_tx_server ++ t.test_tx_client, row.call = i ∧ row.committed = false) :
    ∀ row ∈ (t.apply i op).test_tx_server ++ (t.apply i op).test_tx_client,
      row.call = i ∧ row.committed = false := by
  intro row hrow
  have hrow : row ∈ t.test_tx_server ++ t.test_tx_client ∨ row = Tables.newRow i millis := by
    rcases hop with rfl | rfl <;>
    · simp only [Tables.apply, List.mem_append, List.mem_singleton] at hrow ⊢
      tauto
  rcases hrow with hrow | rfl
  · exact h row hrow
  · exact ⟨rfl, rfl⟩

theorem Running.insertServer (h : Running i t servers clients) (millis : ℕ) :
    Running i (t.apply i (.insertServer millis)) (servers + 1) clients := by
  obtain ⟨hserver, hclient, hrows⟩ := h
  exact ⟨by simp [Tables.apply, hserver], hclient, uncommitted_insert (Or.inl rfl) hrows⟩

theorem Running.insertClient (h : Running i t servers clients) (millis : ℕ) :
    Running i (t.apply i (.insertClient millis)) servers (clients + 1) := by
  obtain ⟨hserver, hclient, hrows⟩ := h
  exact ⟨hserver, by simp [Tables.apply, hclient], uncommitted_insert (Or.inr rfl) hrows⟩

theorem Running.rollback (h : Running i t servers clients) :
    t.apply i .rollback = Tables.empty := by
  have hcall : ∀ row ∈ t.test_tx_server ++ t.test_tx_client, row.call = i :=
    fun row hrow => (h.2.2 row hrow).1
  simp only [List.mem_append] at hcall
  have hserver : t.test_tx_server.filter (·.call ≠ i) = [] :=
    List.filter_eq_nil_iff.2 fun row hrow => by simp [hcall row (Or.inl hrow)]
  have hclient : t.test_tx_client.filter (·.call ≠ i) = [] :=
    List.filter_eq_nil_iff.2 fun row hrow => by simp [hcall row (Or.inr hrow)]
  rw [Tables.apply, hserver, hclient]
  rfl

theorem Running.commit (h : Running i t servers clients) :
    (t.apply i .commit).test_tx_server.length = servers ∧
      (t.apply i .commit).test_tx_client.length = clients ∧
      ∀ row ∈ (t.apply i .commit).test_tx_server ++ (t.apply i .commit).test_tx_client,
        row.call = i ∧ row.committed = true := by
  obtain ⟨hserver, hclient, hrows⟩ := h
  refine ⟨by simp [Tables.apply, hserver], by simp [Tables.apply, hclient], ?_⟩
  intro row hrow
  simp only [Tables.apply, ← List.map_append, List.mem_map] at hrow
  obtain ⟨old, hold, rfl⟩ := hrow
  have hcall := (hrows old hold).1
  rw [Tables.commitRow, if_pos hcall]
  exact ⟨hcall, rfl⟩

end

/-- A loss is answered by a second attempt, and a second loss by an exception. -/
theorem shape_lost {i : ℕ} {es : List CallEvent} (lost : List CallEvent) {m : Method}
    {phase : Phase} {t : Tables} {n k : ℕ} (hfirst : n = 0 → LostAttempts 1 lost k) (hn : n ≤ 1)
    (hes : es = .call m :: lost) (hrows : Running i t k 0) :
    Shape i es ⟨some (Call.lost ⟨m, phase⟩ n), t⟩ := by
  rcases Nat.le_one_iff_eq_zero_or_eq_one.1 hn with rfl | rfl
  · exact ⟨lost, k, hfirst rfl, hes, hrows⟩
  · exact ⟨k, 0, hrows⟩

theorem LostAttempts.le_one {n k : ℕ} {lost : List CallEvent} (h : LostAttempts n lost k) :
    n ≤ 1 := by
  cases h <;> omega

theorem Shape.step {i : ℕ} {es : List CallEvent} {v w : Single} {e : CallEvent}
    (h : Shape i es v) (hstep : (single i).step v e = some w) : Shape i (es ++ [e]) w := by
  obtain ⟨call, t⟩ := v
  obtain ⟨⟨c, op⟩, hadvance, rfl⟩ := Option.map_eq_some_iff.1 hstep
  cases callStep_of_advance hadvance with
  | call m =>
    obtain ⟨rfl, rfl⟩ := h
    exact ⟨[], 0, .none, rfl, rfl, rfl, by simp [Tables.apply, Tables.empty]⟩
  | requestLost m n =>
    obtain ⟨lost, k, hlost, rfl, hrows⟩ := h
    refine shape_lost (lost ++ [.requestLost]) ?_ hlost.le_one (by simp) hrows
    rintro rfl
    cases hlost
    exact .request
  | insertRow m n millis =>
    obtain ⟨lost, k, hlost, rfl, hrows⟩ := h
    exact ⟨lost, k, millis, hlost, rfl, hrows.insertServer millis⟩
  | insertRowFails m n =>
    obtain ⟨lost, k, hlost, rfl, hrows⟩ := h
    exact ⟨lost, k, hlost, rfl, hrows⟩
  | answerLost m n inserted =>
    cases inserted with
    | true =>
      obtain ⟨lost, k, millis, hlost, rfl, hrows⟩ := h
      refine shape_lost (lost ++ [.insertRow millis, .answerLost]) ?_ hlost.le_one (by simp) hrows
      rintro rfl
      cases hlost
      exact .answer millis
    | false =>
      obtain ⟨lost, k, hlost, rfl, hrows⟩ := h
      refine shape_lost (lost ++ [.insertRowFails, .answerLost]) ?_ hlost.le_one (by simp) hrows
      rintro rfl
      cases hlost
      exact .failure
  | answer m n =>
    obtain ⟨lost, k, millis, hlost, rfl, hrows⟩ := h
    exact ⟨n, lost, k, millis, hlost, by simp, hrows⟩
  | failureAnswer m n =>
    obtain ⟨lost, k, hlost, rfl, hrows⟩ := h
    exact ⟨k, 0, hrows⟩
  | inserTxClient m millis =>
    obtain ⟨n, lost, k, t', hlost, rfl, hrows⟩ := h
    exact ⟨n, lost, k, t', millis, hlost, by simp, hrows.insertClient millis⟩
  | inserTxClientFails m =>
    obtain ⟨n, lost, k, t', hlost, rfl, hrows⟩ := h
    exact ⟨k + 1, 0, hrows⟩
  | txMM =>
    obtain ⟨n, lost, k, t', t'', hlost, rfl, hrows⟩ := h
    exact ⟨rfl, n, lost, k, t', t'', hlost, by simp, hrows.commit⟩
  | txMMExe =>
    obtain ⟨n, lost, k, t', t'', hlost, rfl, hrows⟩ := h
    exact hrows.rollback
  | failing m =>
    obtain ⟨k, l, hrows⟩ := h
    exact hrows.rollback

theorem shape_reaches {i : ℕ} {es : List CallEvent} {v : Single}
    (h : (single i).Reaches es v) : Shape i es v := by
  refine Machine.history_invariant (M := single i) (I := Shape i) ?_ ?_ h
  · exact ⟨rfl, rfl⟩
  · intro es v e w _ hshape hstep
    exact hshape.step hstep

/-- The events of a call whose first request was carried out, the answer lost, and whose second
request and local insert succeeded. -/
def Doubled (es : List CallEvent) : Prop :=
  ∃ t₁ t₂ t₃, es = [.call .txMM, .insertRow t₁, .answerLost, .insertRow t₂, .answer,
    .inserTxClient t₃, .leave]

/-- How many committed rows a call has in a table. -/
def committedRows (i : ℕ) (rows : List Row) : ℕ :=
  rows.countP fun row => row.call = i && row.committed

/-- A call that has returned has one committed row in each table, and a call that has thrown has
none in either. -/
def Paired (i : ℕ) (call : Option Call) (t : Tables) : Prop :=
  ∀ c, call = some c →
    (c.phase = .returned →
      committedRows i t.test_tx_server = 1 ∧ committedRows i t.test_tx_client = 1) ∧
    (c.phase = .threw →
      committedRows i t.test_tx_server = 0 ∧ committedRows i t.test_tx_client = 0)

theorem committedRows_eq_length {i : ℕ} {rows : List Row}
    (h : ∀ row ∈ rows, row.call = i ∧ row.committed = true) :
    committedRows i rows = rows.length := by
  refine List.countP_eq_length.2 ?_
  intro row hrow
  simpa using h row hrow

theorem committedRows_filter (i : ℕ) (rows : List Row) :
    committedRows i (rows.filter (·.call = i)) = committedRows i rows := by
  rw [committedRows, List.countP_filter]
  refine List.countP_congr ?_
  intro row _
  simp +contextual

theorem paired_iff_of_call {i : ℕ} {es : List CallEvent} {v : Single}
    (h : (single i).Reaches es v) : Paired i v.call v.tables ↔ ¬ Doubled es := by
  have hshape := shape_reaches h
  constructor
  · rintro hpaired ⟨t₁, t₂, t₃, rfl⟩
    have hexec : ((single i).exec (single i).init [.call .txMM, .insertRow t₁, .answerLost,
        .insertRow t₂, .answer, .inserTxClient t₃, .leave]).map Single.call =
          some (some ⟨.txMM, .returned⟩) := rfl
    rw [h] at hexec
    have hcall : v.call = some ⟨.txMM, .returned⟩ := Option.some.inj hexec
    have hone := ((hpaired _ hcall).1 rfl).1
    simp only [Shape, hcall] at hshape
    obtain ⟨-, n, lost, k, t, t', hlost, hes, hserver, -, hrows⟩ := hshape
    rw [committedRows_eq_length fun row hrow => hrows row (List.mem_append_left _ hrow)] at hone
    cases hlost with
    | answer millis => omega
    | _ => simp at hes
  · rintro hnot ⟨m, phase⟩ hcall
    simp only [Shape, hcall] at hshape
    constructor
    · rintro rfl
      obtain ⟨rfl, n, lost, k, t, t', hlost, hes, hserver, hclient, hrows⟩ := hshape
      have hk : k = 0 := by
        cases hlost with
        | answer millis => exact absurd ⟨millis, t, t', hes⟩ hnot
        | _ => rfl
      rw [committedRows_eq_length fun row hrow => hrows row (List.mem_append_left _ hrow),
        committedRows_eq_length fun row hrow => hrows row (List.mem_append_right _ hrow)]
      omega
    · rintro rfl
      rw [show v.tables = Tables.empty from hshape]
      exact ⟨rfl, rfl⟩

/-- **When the distributed insert is paired.** After a run, every call that has returned has one
committed row in each table and every call that has thrown has none in either, exactly when no call
has lost the answer to a request that was carried out and has then succeeded with the second one. -/
theorem paired_iff {ls : List (ℕ × CallEvent)} {s : Demo} (h : machine.Reaches ls s) :
    (∀ i, Paired i (s.calls i) s.tables) ↔ ∀ i, ¬ Doubled (script i ls) := by
  refine forall_congr' ?_
  intro i
  rw [← paired_iff_of_call (project h i)]
  simp only [Paired, ofCall, Tables.ofCall, committedRows_filter]

/-- Two calls at once: one succeeds at its second attempt, and the other loses the answer to an
insert, but throws at its end. -/
theorem paired_iff_run :
    let ls : List (ℕ × CallEvent) := [(0, .call .txMM), (1, .call .txMMExe), (0, .requestLost),
      (1, .insertRow 5), (0, .insertRow 6), (1, .answerLost), (0, .answer), (1, .insertRow 7),
      (1, .answer), (1, .inserTxClient 8), (0, .inserTxClient 9), (1, .leave), (0, .leave)]
    ∃ s, machine.Reaches ls s ∧ s.calls 0 = some ⟨.txMM, .returned⟩ ∧
      s.calls 1 = some ⟨.txMMExe, .threw⟩ ∧ ∀ i, Paired i (s.calls i) s.tables := by
  intro ls
  have hrun : ∃ s, machine.Reaches ls s ∧ s.calls 0 = some ⟨.txMM, .returned⟩ ∧
      s.calls 1 = some ⟨.txMMExe, .threw⟩ := ⟨_, rfl, rfl, rfl⟩
  obtain ⟨s, hs, hreturned, hthrew⟩ := hrun
  refine ⟨s, hs, hreturned, hthrew, (paired_iff hs).2 ?_⟩
  -- the call that has lost an answer is not one of `txMM`
  rintro i ⟨t₁, t₂, t₃, hscript⟩
  have hevent : ∀ e ∈ script i ls, (i, e) ∈ ls := by
    intro e he
    obtain ⟨⟨j, e⟩, hl, rfl⟩ := List.mem_map.1 he
    obtain ⟨hl, hj⟩ := List.mem_filter.1 hl
    exact of_decide_eq_true hj ▸ hl
  have hcall := hevent (.call .txMM) (by simp [hscript])
  have hlost := hevent .answerLost (by simp [hscript])
  have hfirst : ∀ l ∈ ls, l.2 = .call .txMM → l.1 = 0 := by decide
  have hsecond : ∀ l ∈ ls, l.2 = .answerLost → l.1 = 1 := by decide
  have hzero : i = 0 := hfirst _ hcall rfl
  have hone : i = 1 := hsecond _ hlost rfl
  cases hzero.symm.trans hone

/-- The answer to the first request is lost after the insert: the call returns `true` and has two
committed rows in `test_tx_server`. -/
theorem inserted_twice :
    ∃ s, machine.Reaches [(0, .call .txMM), (0, .insertRow 5), (0, .answerLost), (0, .insertRow 6),
        (0, .answer), (0, .inserTxClient 7), (0, .leave)] s ∧
      s.calls 0 = some ⟨.txMM, .returned⟩ ∧ committedRows 0 s.tables.test_tx_server = 2 ∧
      committedRows 0 s.tables.test_tx_client = 1 :=
  ⟨_, rfl, rfl, rfl, rfl⟩

end Demo

end MmtxSample
