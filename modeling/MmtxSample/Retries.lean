import MmtxSample.Netty.IdleStateHandler
import MmtxSample.Reconnect

/-!
# How often the client connects

The client has one lifeline (`Client.client_lifeline`), so all that happens to it happens to its
last attempt, and it goes round in a cycle: an attempt fails, and a retry is scheduled and runs; or
it succeeds, and the connection is lost and fires `channelInactive` (`Turn`). Two results follow.

Every attempt is accounted for (`attempts_accounted`): it is the first one, or the retry of one that
has failed, or follows a connection that was lost, and no call of `doConnect` is swallowed by its
guard.

And the client does not storm the server (`retries_paced`). A retry runs ten seconds after it was
scheduled, or later, and the next one is scheduled only after it has run. Had the client ever two
lifelines, there would be two chains of retries. With one, in any stretch of a run, it makes no more
new attempts than it loses connections, and one more for every ten seconds, and one.
-/

namespace MmtxSample

open Java Netty TransitionSystem

/-- The attempt has failed, and its retry has not run. -/
def Stage.awaitsRetry : Stage → Bool
  | failed | scheduled => true
  | _ => false

/-- The attempt has succeeded, and the client has not seen its connection go. -/
def Stage.isConnection : Stage → Bool
  | connected _ | lost _ => true
  | _ => false

namespace Client

variable {s t : Client} {e : Event} {k m : ℕ}

/-! ## The last attempt -/

/-- What an event makes of the last attempt, number `k`, and the number of the last attempt after
it. -/
inductive Turn (k : ℕ) : Stage → Event → Stage → ℕ → Prop
  | success : Turn k .connecting (.success k) (.connected false) k
  | failure : Turn k .connecting (.failure k) .failed k
  | listen : Turn k (.connected false) (.operationComplete k) (.connected true) k
  | listenLost : Turn k (.lost false) (.operationComplete k) (.lost true) k
  | schedule : Turn k .failed (.operationComplete k) .scheduled k
  | run : Turn k .scheduled (.run k) .connecting (k + 1)
  | lose (listened : Bool) : Turn k (.connected listened) (.lose k) (.lost listened) k
  | channelInactive : Turn k (.lost true) (.channelInactive k) .connecting (k + 1)
  | sendData (stage : Stage) (r : ℕ) (content : Bytes) : Turn k stage (.sendData r content) stage k
  | step (stage : Stage) (r : ℕ) : Turn k stage (.step r) stage k

theorem Turn.last {stage stage' : Stage} (h : Turn k stage e stage' m) : m = k ∨ m = k + 1 := by
  cases h <;> simp

theorem Turn.stage_eq {stage stage' : Stage} (h : Turn k stage e stage' (k + 1)) :
    stage' = .connecting := by
  cases h <;> rfl

theorem Turn.eq_of_thread {stage stage' : Stage} {r : ℕ} (h : Turn k stage e stage' m)
    (he : e.thread? = some r) : m = k := by
  cases h with
  | sendData | step => rfl
  | _ => cases he

/-- The last attempt goes on. -/
theorem Current.turn_setStage (h : s.Current k) {n : ℕ} {stage stage' : Stage}
    (hstage : s.stage n = stage) (hlive : stage.lifeline ≠ none) (hlive' : stage'.lifeline ≠ none)
    (hlistened : stage'.listened = stage.listened) (hturn : Turn n stage e stage' n) :
    ∃ m, (s.setStage n stage').Current m ∧
      Turn k (s.stage k) e ((s.setStage n stage').stage m) m := by
  subst hstage
  obtain rfl := h.eq_of_lifeline hlive
  refine ⟨n, h.setStage hlive' (hlistened ▸ h.channel) h.channel_le, ?_⟩
  rw [stage_setStage, if_pos rfl]
  exact hturn

/-- The listener of the last attempt sets `channel`. -/
theorem Current.turn_listen (h : s.Current k) {n : ℕ} {stage stage' : Stage}
    (hstage : s.stage n = stage) (hlive : stage.lifeline ≠ none) (hlive' : stage'.lifeline ≠ none)
    (hlistened : stage'.listened = true) (hturn : Turn n stage e stage' n) :
    ∃ m, ((s.setStage n stage').operationComplete n true).Current m ∧
      Turn k (s.stage k) e ((s.setStage n stage').stage m) m := by
  subst hstage
  obtain rfl := h.eq_of_lifeline hlive
  have hcurrent : Current { s.setStage n stage' with channel := some n } n :=
    h.setStage hlive' (by simp [hlistened]) fun m hm => (Option.some.inj hm).ge
  refine ⟨n, hcurrent, ?_⟩
  rw [stage_setStage, if_pos rfl]
  exact hturn

/-- The last attempt ends, and there is a new one. -/
theorem Current.turn_doConnect (h : s.Current k) {n : ℕ} {stage stage' : Stage}
    (hstage : s.stage n = stage) (hlive : stage.lifeline ≠ none) (hover : stage'.lifeline = none)
    (hturn : Turn n stage e .connecting (n + 1)) :
    ∃ m, (s.setStage n stage').doConnect.Current m ∧
      Turn k (s.stage k) e ((s.setStage n stage').doConnect.stage m) m := by
  subst hstage
  obtain rfl := h.eq_of_lifeline hlive
  have hconnects : (s.setStage n stage').connects = n + 1 := h.connects
  refine ⟨n + 1, h.again hover, ?_⟩
  rw [h.doConnect_eq hover, stage_connect, if_pos hconnects.symm]
  exact hturn

/-- Whatever happens, happens to the last attempt. -/
theorem Current.turn (h : s.Current k) (hstep : s.step e = some t) :
    ∃ m, t.Current m ∧ Turn k (s.stage k) e (t.stage m) m := by
  cases e with
  | success n =>
    simp only [step] at hstep
    split at hstep
    · rename_i hstage
      obtain rfl := Option.some.inj hstep
      exact h.turn_setStage hstage (Option.some_ne_none _) (Option.some_ne_none _) rfl .success
    · cases hstep
  | failure n =>
    simp only [step] at hstep
    split at hstep
    · rename_i hstage
      obtain rfl := Option.some.inj hstep
      exact h.turn_setStage hstage (Option.some_ne_none _) (Option.some_ne_none _) rfl .failure
    · cases hstep
  | operationComplete n =>
    simp only [step] at hstep
    split at hstep
    · rename_i hstage
      obtain rfl := Option.some.inj hstep
      exact h.turn_listen hstage (Option.some_ne_none _) (Option.some_ne_none _) rfl .listen
    · rename_i hstage
      obtain rfl := Option.some.inj hstep
      exact h.turn_listen hstage (Option.some_ne_none _) (Option.some_ne_none _) rfl .listenLost
    · rename_i hstage
      obtain rfl := Option.some.inj hstep
      exact h.turn_setStage hstage (Option.some_ne_none _) (Option.some_ne_none _) rfl .schedule
    · cases hstep
  | lose n =>
    simp only [step] at hstep
    split at hstep
    · rename_i listened hstage
      obtain rfl := Option.some.inj hstep
      exact h.turn_setStage hstage (Option.some_ne_none _) (Option.some_ne_none _) rfl
        (.lose listened)
    · cases hstep
  | run n =>
    simp only [step] at hstep
    split at hstep
    · rename_i hstage
      obtain rfl := Option.some.inj hstep
      exact h.turn_doConnect hstage (Option.some_ne_none _) rfl .run
    · cases hstep
  | channelInactive n =>
    simp only [step] at hstep
    split at hstep
    · rename_i hstage
      obtain rfl := Option.some.inj hstep
      exact h.turn_doConnect hstage (Option.some_ne_none _) rfl .channelInactive
    · cases hstep
  | sendData r content =>
    obtain ⟨calls, written, rfl⟩ := calls_of_step hstep rfl
    exact ⟨k, ⟨h.connects, h.live, h.ended, h.unused, h.channel, h.channel_le⟩, .sendData _ r _⟩
  | step r =>
    obtain ⟨calls, written, rfl⟩ := calls_of_step hstep rfl
    exact ⟨k, ⟨h.connects, h.live, h.ended, h.unused, h.channel, h.channel_le⟩, .step _ r⟩

/-! ## Every attempt is accounted for -/

def Event.isSuccess : Event → Bool
  | success _ => true
  | _ => false

def Event.isFailure : Event → Bool
  | failure _ => true
  | _ => false

def Event.isRun : Event → Bool
  | run _ => true
  | _ => false

def Event.isChannelInactive : Event → Bool
  | channelInactive _ => true
  | _ => false

/-- What a turn adds to either side of the ledger. -/
theorem Turn.balance {stage stage' : Stage} (h : Turn k stage e stage' m) :
    m = k + e.isRun.toNat + e.isChannelInactive.toNat ∧
      e.isFailure.toNat + stage.awaitsRetry.toNat = e.isRun.toNat + stage'.awaitsRetry.toNat ∧
      e.isSuccess.toNat + stage.isConnection.toNat =
        e.isChannelInactive.toNat + stage'.isConnection.toNat := by
  cases h <;> exact ⟨rfl, rfl, rfl⟩

theorem countP_snoc (p : Event → Bool) (es : List Event) (e : Event) :
    (es ++ [e]).countP p = es.countP p + (p e).toNat := by
  rw [List.countP_append, List.countP_singleton]
  cases p e <;> rfl

/-- The ledger of a run whose last attempt, number `k`, is at `stage`. -/
structure Balanced (es : List Event) (k : ℕ) (stage : Stage) : Prop where
  attempts : k = es.countP Event.isRun + es.countP Event.isChannelInactive
  failures : es.countP Event.isFailure = es.countP Event.isRun + stage.awaitsRetry.toNat
  successes : es.countP Event.isSuccess =
    es.countP Event.isChannelInactive + stage.isConnection.toNat

theorem Balanced.turn {es : List Event} {stage stage' : Stage} (h : Balanced es k stage)
    (hturn : Turn k stage e stage' m) : Balanced (es ++ [e]) m stage' := by
  obtain ⟨hattempts, hfailures, hsuccesses⟩ := h
  obtain ⟨hm, hfailure, hsuccess⟩ := hturn.balance
  constructor <;> simp only [countP_snoc] <;> omega

theorem balanced_reaches {es : List Event} (h : machine.Reaches es s) :
    ∃ k, s.Current k ∧ Balanced es k (s.stage k) := by
  refine Machine.history_invariant (M := machine)
    (I := fun es s => ∃ k, s.Current k ∧ Balanced es k (s.stage k)) ?_ ?_ h
  · exact ⟨0, current_start, rfl, rfl, rfl⟩
  · rintro es s e t - ⟨k, hcurrent, hbalanced⟩ hstep
    obtain ⟨m, hcurrent', hturn⟩ := hcurrent.turn hstep
    exact ⟨m, hcurrent', hbalanced.turn hturn⟩

/-- **Every attempt is accounted for.** In every reached state, each attempt but the first is the
retry of one that has failed or has replaced a connection that was lost; each attempt that has
failed is retried once, but for the last, whose retry may be still to run; and each that has
succeeded is replaced once, but for the last, whose connection may be there still. -/
theorem attempts_accounted {es : List Event} (h : machine.Reaches es s) :
    s.connects = 1 + es.countP Event.isRun + es.countP Event.isChannelInactive ∧
      es.countP Event.isFailure =
        es.countP Event.isRun + (s.stage (s.connects - 1)).awaitsRetry.toNat ∧
      es.countP Event.isSuccess =
        es.countP Event.isChannelInactive + (s.stage (s.connects - 1)).isConnection.toNat := by
  obtain ⟨k, hcurrent, hbalanced⟩ := balanced_reaches h
  have hlast : s.connects - 1 = k := by
    rw [hcurrent.connects]
    rfl
  rw [hlast]
  refine ⟨?_, hbalanced.failures, hbalanced.successes⟩
  rw [hcurrent.connects, hbalanced.attempts]
  omega

/-- A retry, and a connection made anew. -/
theorem attempts_accounted_run :
    let es : List Event := [.failure 0, .operationComplete 0, .run 0, .success 1, .lose 1,
      .operationComplete 1, .channelInactive 1]
    ∃ s, machine.Reaches es s ∧
      s.connects = 1 + es.countP Event.isRun + es.countP Event.isChannelInactive := by
  intro es
  have hrun : ∃ s, machine.Reaches es s := ⟨_, rfl⟩
  obtain ⟨s, hs⟩ := hrun
  exact ⟨s, hs, (attempts_accounted hs).1⟩

end Client

/-! ## The ten seconds -/

/-- The client and its timer, which may run the retry of attempt `n` from `due n` on. Time is in
nanoseconds. -/
structure TimedClient where
  client : Client
  now : ℕ
  due : ℕ → ℕ

namespace TimedClient

open Client

inductive Label
  | wait (d : ℕ)
  | event (e : Event)

/-- A retry does not run before its time. -/
def MayRun (s : TimedClient) : Event → Prop
  | .run n => s.due n ≤ s.now
  | _ => True

instance (s : TimedClient) : (e : Event) → Decidable (s.MayRun e)
  | .run n => inferInstanceAs (Decidable (s.due n ≤ s.now))
  | .success _ | .failure _ | .operationComplete _ | .lose _ | .channelInactive _
  | .sendData _ _ | .step _ => isTrue trivial

/-- `schedule(.., 10, TimeUnit.SECONDS)`, by the listener of a failed attempt. -/
def schedule (s : TimedClient) : Event → ℕ → ℕ
  | .operationComplete n =>
    if s.client.stage n = .failed then Function.update s.due n (s.now + seconds 10) else s.due
  | _ => s.due

def step (s : TimedClient) : Label → Option TimedClient
  | .wait d => some { s with now := s.now + d }
  | .event e =>
    if s.MayRun e then (s.client.step e).map fun c => ⟨c, s.now, s.schedule e⟩ else none

def machine : Machine TimedClient Label := ⟨⟨start, 0, fun _ => 0⟩, step⟩

def Label.event? : Label → Option Event
  | .event e => some e
  | .wait _ => none

def Label.duration : Label → ℕ
  | .wait d => d
  | .event _ => 0

/-- How long the steps take. -/
def elapsed (ls : List Label) : ℕ := (ls.map Label.duration).sum

/-- How many retries run. -/
def runs (ls : List Label) : ℕ := (ls.filterMap Label.event?).countP Event.isRun

/-- How many connections are seen to go. -/
def losses (ls : List Label) : ℕ := (ls.filterMap Label.event?).countP Event.isChannelInactive

/-- But for the time, the client is the one without a timer. -/
theorem projects_client : Machine.Projects machine Client.machine client Label.event? where
  init := rfl
  step := by
    rintro ls s l t - hstep
    cases l with
    | wait d =>
      obtain rfl := Option.some.inj hstep
      rfl
    | event e =>
      obtain ⟨-, hmap⟩ := Option.ite_none_right_eq_some.1 hstep
      obtain ⟨c, hc, rfl⟩ := Option.map_eq_some_iff.1 hmap
      exact hc

theorem elapsed_snoc (ls : List Label) (l : Label) :
    elapsed (ls ++ [l]) = elapsed ls + l.duration := by
  simp [elapsed]

theorem runs_wait (ls : List Label) (d : ℕ) : runs (ls ++ [.wait d]) = runs ls := by
  simp [runs, Label.event?]

theorem runs_event (ls : List Label) (e : Event) :
    runs (ls ++ [.event e]) = runs ls + e.isRun.toNat := by
  rw [runs, List.filterMap_append]
  exact countP_snoc Event.isRun _ e

/-- How far the retries may have come, at ten seconds each: to the time at which the scheduled one
may run, or else to that at which the next one may. -/
def horizon (stage : Stage) (due now : ℕ) : ℕ :=
  if stage = .scheduled then max due now else now + seconds 10

/-- A stretch of a run, from `u` to `s`. -/
structure Paced (u : TimedClient) (ls : List Label) (s : TimedClient) (k : ℕ) : Prop where
  current : s.client.Current k
  now_eq : s.now = u.now + elapsed ls
  due_le : s.client.stage k = .scheduled → s.due k ≤ s.now + seconds 10
  runs_le : u.now + seconds 10 * runs ls ≤ horizon (s.client.stage k) (s.due k) s.now

variable {u s : TimedClient} {ls : List Label} {k : ℕ}

theorem Paced.wait (h : Paced u ls s k) (d : ℕ) :
    Paced u (ls ++ [.wait d]) { s with now := s.now + d } k where
  current := h.current
  now_eq := by
    rw [elapsed_snoc, ← Nat.add_assoc, ← h.now_eq]
    rfl
  due_le hstage := (h.due_le hstage).trans (by show s.now + _ ≤ s.now + d + _; omega)
  runs_le := by
    have hruns := h.runs_le
    rw [runs_wait]
    refine hruns.trans ?_
    unfold horizon
    split_ifs
    · exact max_le_max_left _ (Nat.le_add_right _ _)
    · show s.now + _ ≤ s.now + d + _
      omega

theorem Paced.event (h : Paced u ls s k) {e : Event} {c : Client} (hmay : s.MayRun e)
    (hstep : s.client.step e = some c) :
    ∃ m, Paced u (ls ++ [.event e]) ⟨c, s.now, s.schedule e⟩ m := by
  obtain ⟨m, hcurrent, hturn⟩ := h.current.turn hstep
  have hdue := h.due_le
  have hruns := h.runs_le
  have hnow : s.now = u.now + elapsed (ls ++ [.event e]) := by
    rw [elapsed_snoc]
    exact h.now_eq
  generalize hstage : s.client.stage k = stage at hturn hdue hruns
  generalize hstage' : c.stage m = stage' at hturn
  refine ⟨m, hcurrent, hnow, ?_, ?_⟩
  · show c.stage m = .scheduled → s.schedule e m ≤ s.now + seconds 10
    rw [hstage']
    cases hturn with
    | schedule => simp [schedule, hstage]
    | sendData | step => exact hdue
    | _ => simp
  · show u.now + seconds 10 * runs (ls ++ [.event e]) ≤ horizon (c.stage m) (s.schedule e m) s.now
    rw [runs_event, hstage']
    cases hturn with
    | run =>
      have hmay : s.due k ≤ s.now := hmay
      simp only [horizon, if_true, max_eq_right hmay] at hruns
      simpa [horizon, Event.isRun, Nat.mul_add, ← Nat.add_assoc] using hruns
    | schedule => simpa [horizon, schedule, hstage, Event.isRun] using hruns
    | _ => simpa [horizon, Event.isRun, schedule, hstage] using hruns

/-- No retry is further away than ten seconds. -/
theorem due_le_reaches (h : machine.Reaches ls s) (n : ℕ) : s.due n ≤ s.now + seconds 10 := by
  refine Machine.invariant (I := fun s => ∀ n, s.due n ≤ s.now + seconds 10) ?_ ?_ h n
  · exact fun n => Nat.zero_le _
  · intro s l t hdue hstep n
    cases l with
    | wait d =>
      obtain rfl := Option.some.inj hstep
      exact (hdue n).trans (Nat.add_le_add_right (Nat.le_add_right _ d) _)
    | event e =>
      obtain ⟨-, hmap⟩ := Option.ite_none_right_eq_some.1 hstep
      obtain ⟨c, -, rfl⟩ := Option.map_eq_some_iff.1 hmap
      show s.schedule e n ≤ _
      unfold schedule
      split
      · rename_i m
        split_ifs
        · by_cases hn : n = m
          · simp [hn]
          · simpa [hn] using hdue n
        · exact hdue n
      · exact hdue n

/-- A stretch of a run keeps its pace. -/
theorem paced_exec (hu : machine.Reaches ls u) {mid : List Label}
    (h : machine.exec u mid = some s) : ∃ k, Paced u mid s k := by
  refine Machine.exec_history_invariant (M := machine)
    (I := fun mid s => ∃ k, Paced u mid s k) ?_ ?_ h
  · obtain ⟨k, hcurrent⟩ := current_reaches (projects_client.reaches hu)
    refine ⟨k, hcurrent, rfl, fun _ => due_le_reaches hu k, ?_⟩
    unfold horizon
    split_ifs
    · exact le_max_right _ _
    · exact Nat.le_add_right _ _
  · rintro mid s l t ⟨k, hpaced⟩ hstep
    cases l with
    | wait d => exact ⟨k, Option.some.inj hstep ▸ hpaced.wait d⟩
    | event e =>
      obtain ⟨hmay, hmap⟩ := Option.ite_none_right_eq_some.1 hstep
      obtain ⟨c, hc, rfl⟩ := Option.map_eq_some_iff.1 hmap
      exact hpaced.event hmay hc

/-- The retries of a stretch take ten seconds each, but for the first. -/
theorem Paced.elapsed_le (h : Paced u ls s k) :
    seconds 10 * TimedClient.runs ls ≤ elapsed ls + seconds 10 := by
  have hruns := h.runs_le
  have hnow := h.now_eq
  have hhorizon : horizon (s.client.stage k) (s.due k) s.now ≤ s.now + seconds 10 := by
    unfold horizon
    split_ifs with hstage
    · exact max_le (h.due_le hstage) (Nat.le_add_right _ _)
    · exact Nat.le_refl _
  omega

theorem connects_reaches (h : machine.Reaches ls s) :
    s.client.connects = 1 + runs ls + losses ls := by
  obtain ⟨k, hcurrent, hbalanced⟩ := balanced_reaches (projects_client.reaches h)
  rw [hcurrent.connects, hbalanced.attempts, runs, losses]
  omega

/-- **The client does not storm the server.** In any stretch of any run, each new attempt is a retry
or follows the loss of a connection, and there is one retry at most for every ten seconds, and
one. -/
theorem retries_paced {pre mid : List Label} (hu : machine.Reaches pre u)
    (h : machine.Reaches (pre ++ mid) s) :
    s.client.connects = u.client.connects + runs mid + losses mid ∧
      runs mid ≤ elapsed mid / seconds 10 + 1 := by
  constructor
  · rw [connects_reaches h, connects_reaches hu, runs, losses, runs, losses, List.filterMap_append,
      List.countP_append, List.countP_append]
    simp only [runs, losses]
    omega
  · obtain ⟨u', hu', hexec⟩ := Machine.reaches_append.1 h
    obtain rfl := hu'.unique hu
    obtain ⟨k, hpaced⟩ := paced_exec hu hexec
    have hten : 0 < seconds 10 := by decide
    rw [← Nat.add_div_right _ hten, Nat.le_div_iff_mul_le hten, Nat.mul_comm]
    exact hpaced.elapsed_le

/-- Two retries in ten seconds, the first of which was due when they began. -/
theorem retries_paced_run :
    let pre : List Label := [.event (.failure 0), .event (.operationComplete 0),
      .wait (seconds 10)]
    let mid : List Label := [.event (.run 0), .event (.failure 1), .event (.operationComplete 1),
      .wait (seconds 10), .event (.run 1)]
    ∃ u s, machine.Reaches pre u ∧ machine.Reaches (pre ++ mid) s ∧ runs mid = 2 ∧
      elapsed mid / seconds 10 + 1 = 2 ∧ runs mid ≤ elapsed mid / seconds 10 + 1 := by
  intro pre mid
  have hpre : ∃ u, machine.Reaches pre u := ⟨_, rfl⟩
  have hrun : ∃ s, machine.Reaches (pre ++ mid) s := ⟨_, rfl⟩
  obtain ⟨u, hu⟩ := hpre
  obtain ⟨s, hs⟩ := hrun
  exact ⟨u, s, hu, hs, by decide, by decide, (retries_paced hu hs).2⟩

end TimedClient

end MmtxSample
