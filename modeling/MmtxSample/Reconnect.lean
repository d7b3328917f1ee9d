import MmtxSample.Frames
import MmtxSample.Lib.Machine

/-!
# The reconnecting client

`doConnect` is entered from three places: `start`, the retry that the listener of a failed attempt
schedules, and `channelInactive` of a lost connection. Its only guard is the field `channel`, which
the listener of a successful attempt sets some time after the connection is there.

In every reached state the client nevertheless has exactly one *lifeline*, an attempt in flight, a
scheduled retry or a connection, and a connection whose listener has run is the one that `channel`
refers to (`client_lifeline`). The invariant is `Current`: of all attempts made, only the last one
is not over. An attempt ends in the very step that enters `doConnect`, so there is no active
connection left for the guard to find (`doConnect_eq_connect`), and each of these steps makes
exactly one new attempt. Until it has made it nothing can happen but steps of `sendData`, which
leave `channel` alone, so `doConnect` is one step.

`sendData` is called by other threads, any number of them, and reads the field `channel` at each of
its steps: `channel != null`, then `channel.isActive()`, then the write. Anything may happen between
these, so the write may find another channel than the check has found, or one that is no longer
active and takes nothing. It never finds null (`sendData_never_null`).

Of Netty this takes that an attempt completes its future once, that a failed one never fires
`channelInactive`, and that a successful one runs its listener before its `channelInactive`. What
loses a connection (the server's idle reader, a removal, the network) makes no difference to the
client, and may happen at any time, before the listener has run too.
-/

namespace MmtxSample

open Java Netty CustomHeartbeatHandler TransitionSystem

/-- How far an attempt to connect has come, and the connection it has made. `listened` tells whether
the listener has run. -/
inductive Stage
  /-- not made yet -/
  | unused
  /-- the future is not complete -/
  | connecting
  /-- the future has failed, and the listener has not run -/
  | failed
  /-- the listener has scheduled a retry -/
  | scheduled
  /-- the retry has run -/
  | retried
  /-- the channel is active -/
  | connected (listened : Bool)
  /-- the channel is no longer active, and has not fired `channelInactive` -/
  | lost (listened : Bool)
  /-- the channel has fired `channelInactive` -/
  | closed
  deriving DecidableEq, Repr

/-- What keeps the client going. -/
inductive Lifeline
  | attempt
  | retry
  | connection
  deriving DecidableEq, Repr

namespace Stage

def isActive : Stage → Bool
  | connected _ => true
  | _ => false

def listened : Stage → Bool
  | connected b | lost b => b
  | _ => false

/-- An attempt is in flight until its listener has seen it fail, and a connection lives until the
client has seen it go. -/
def lifeline : Stage → Option Lifeline
  | connecting | failed => some .attempt
  | scheduled => some .retry
  | connected _ | lost _ => some .connection
  | unused | retried | closed => none

theorem isActive_of_lifeline {stage : Stage} (h : stage.lifeline = none) :
    stage.isActive = false := by
  cases stage with
  | connected b => cases h
  | _ => rfl

theorem eq_connected {stage : Stage} (hactive : stage.isActive = true)
    (hlistened : stage.listened = true) : stage = .connected true := by
  cases stage with
  | connected b => exact congrArg connected hlistened
  | _ => cases hactive

end Stage

/-- What a call of `sendData` does next. -/
inductive SendData
  /-- before `channel != null` -/
  | notNull (content : Bytes)
  /-- before `channel.isActive()` -/
  | isActive (content : Bytes)
  /-- before the frame is made and written to `channel` -/
  | write (content : Bytes)
  deriving DecidableEq

namespace SendData

def content : SendData → Bytes
  | notNull content | isActive content | write content => content

/-- The call has found `channel` not null. -/
def checked : SendData → Bool
  | notNull _ => false
  | isActive _ | write _ => true

end SendData

/-- The attempts are numbered. The number of an attempt also stands for its channel. The threads
that call `sendData` are numbered as well, and `written` records what they have written to which
channel. -/
structure Client where
  connects : ℕ
  stage : ℕ → Stage
  channel : Option ℕ
  calls : ℕ → Option SendData
  written : List (ℕ × List UInt8)

namespace Client

/-- What happens to attempt `n`, or what thread `r` does. -/
inductive Event
  | success (n : ℕ)
  | failure (n : ℕ)
  /-- the listener runs -/
  | operationComplete (n : ℕ)
  /-- the retry runs, after its ten seconds -/
  | run (n : ℕ)
  /-- the server or the network closes the connection -/
  | lose (n : ℕ)
  | channelInactive (n : ℕ)
  /-- a call begins -/
  | sendData (r : ℕ) (content : Bytes)
  /-- the call takes its next step -/
  | step (r : ℕ)
  deriving DecidableEq

def isActive (s : Client) (n : ℕ) : Bool := (s.stage n).isActive

def setStage (s : Client) (n : ℕ) (stage : Stage) : Client :=
  { s with stage := Function.update s.stage n stage }

/-- `bootstrap.connect`. -/
def connect (s : Client) : Client :=
  { s.setStage s.connects .connecting with connects := s.connects + 1 }

def doConnect (s : Client) : Client :=
  match s.channel with
  | some n => if s.isActive n then s else s.connect
  | none => s.connect

/-- The listener of an attempt. -/
def operationComplete (s : Client) (n : ℕ) (isSuccess : Bool) : Client :=
  if isSuccess then { s with channel := some n } else s.setStage n .scheduled

def setCall (s : Client) (r : ℕ) (call : Option SendData) : Client :=
  { s with calls := Function.update s.calls r call }

/-- `channel.writeAndFlush`. The write fails when the channel is not active. -/
def writeAndFlush (s : Client) (n : ℕ) (buf : ByteBuf) : Client :=
  if s.isActive n then { s with written := s.written ++ [(n, buf.readable)] } else s

/-- The next step of the call of thread `r`. -/
def sendData (s : Client) (r : ℕ) : SendData → Except Exception Client
  | .notNull content =>
    match s.channel with
    | some _ => .ok (s.setCall r (some (.isActive content)))
    | none => .ok (s.setCall r none)
  | .isActive content =>
    match s.channel with
    | some n => .ok (s.setCall r (if s.isActive n then some (.write content) else none))
    | none => .error .nullPointer
  | .write content =>
    match s.channel with
    | some n => (sendDataBuf content).map ((s.setCall r none).writeAndFlush n)
    | none => .error .nullPointer

/-- A call that throws is over. -/
def stepCall (s : Client) (r : ℕ) (call : SendData) : Client :=
  match s.sendData r call with
  | .ok t => t
  | .error _ => s.setCall r none

def step (s : Client) : Event → Option Client
  | .success n =>
    match s.stage n with
    | .connecting => some (s.setStage n (.connected false))
    | _ => none
  | .failure n =>
    match s.stage n with
    | .connecting => some (s.setStage n .failed)
    | _ => none
  | .operationComplete n =>
    match s.stage n with
    | .connected false => some ((s.setStage n (.connected true)).operationComplete n true)
    | .lost false => some ((s.setStage n (.lost true)).operationComplete n true)
    | .failed => some (s.operationComplete n false)
    | _ => none
  | .run n =>
    match s.stage n with
    | .scheduled => some (s.setStage n .retried).doConnect
    | _ => none
  | .lose n =>
    match s.stage n with
    | .connected listened => some (s.setStage n (.lost listened))
    | _ => none
  | .channelInactive n =>
    match s.stage n with
    | .lost true => some (s.setStage n .closed).doConnect
    | _ => none
  | .sendData r content =>
    match s.calls r with
    | none => some (s.setCall r (some (.notNull content)))
    | some _ => none
  | .step r => (s.calls r).map (s.stepCall r)

/-- `start`, on a new client. -/
def start : Client := doConnect ⟨0, fun _ => .unused, none, fun _ => none, []⟩

def machine : Machine Client Event := ⟨start, step⟩

variable {s t : Client} {e : Event} {k n r : ℕ}

/-! ## What a step does -/

theorem stage_setStage (s : Client) (n : ℕ) (stage : Stage) (m : ℕ) :
    (s.setStage n stage).stage m = if m = n then stage else s.stage m :=
  Function.update_apply ..

theorem stage_connect (s : Client) (m : ℕ) :
    s.connect.stage m = if m = s.connects then .connecting else s.stage m :=
  Function.update_apply ..

theorem calls_setCall (s : Client) (r : ℕ) (call : Option SendData) (r' : ℕ) :
    (s.setCall r call).calls r' = if r' = r then call else s.calls r' :=
  Function.update_apply ..

/-- The moves of the client. A callback sees an attempt or a connection through, or lets it end and
enters `doConnect`. -/
inductive Move (s : Client) : Client → Prop
  | send (calls : ℕ → Option SendData) (written : List (ℕ × List UInt8)) :
    Move s { s with calls := calls, written := written }
  | turn {n : ℕ} {stage : Stage} (hlive : (s.stage n).lifeline ≠ none)
    (hstage : stage.lifeline ≠ none)
    (hlistened : stage.listened = (s.stage n).listened) : Move s (s.setStage n stage)
  | listen {n : ℕ} {stage : Stage} (hlive : (s.stage n).lifeline ≠ none)
    (hstage : stage.lifeline ≠ none) (hlistened : stage.listened = true) :
    Move s { s.setStage n stage with channel := some n }
  | again {n : ℕ} {stage : Stage} (hlive : (s.stage n).lifeline ≠ none)
    (hover : stage.lifeline = none) : Move s (s.setStage n stage).doConnect

/-- The thread whose call of `sendData` begins or takes a step. -/
def Event.thread? : Event → Option ℕ
  | sendData r _ | step r => some r
  | _ => none

theorem step_sendData {content : Bytes} (h : s.step (.sendData r content) = some t) :
    s.calls r = none ∧ t = s.setCall r (some (.notNull content)) := by
  simp only [step] at h
  split at h
  · rename_i hcall
    exact ⟨hcall, (Option.some.inj h).symm⟩
  · cases h

/-- The write of a buffer that could be made. -/
theorem stepCall_write {content : Bytes} (hchannel : s.channel = some n)
    (hint : 5 + content.length ≤ intMax) :
    s.stepCall r (.write content) =
      (s.setCall r none).writeAndFlush n (.wrap (frame CUSTOM_MSG content.data)) := by
  have hbuf : sendDataBuf content = .ok (.wrap (frame CUSTOM_MSG content.data)) :=
    customBuf_eq hint
  rw [stepCall, sendData, hchannel, hbuf]
  rfl

/-- The call whose buffer is too long throws, and is over. -/
theorem stepCall_overflow {content : Bytes} (hchannel : s.channel = some n)
    (hint : ¬ 5 + content.length ≤ intMax) : s.stepCall r (.write content) = s.setCall r none := by
  have hbuf : sendDataBuf content = .error .illegalArgument :=
    customBuf_overflow (Nat.lt_of_not_le hint)
  rw [stepCall, sendData, hchannel, hbuf]
  rfl

/-- What the next step of a call comes to: it goes on, or is over without a write, or writes to an
active channel. -/
theorem stepCall_cases (s : Client) (r : ℕ) (call : SendData) :
    (∃ call', s.stepCall r call = s.setCall r (some call') ∧ call'.content = call.content ∧
      s.channel ≠ none) ∨
    s.stepCall r call = s.setCall r none ∨
    ∃ n content, call = .write content ∧ s.channel = some n ∧ s.isActive n = true ∧
      5 + content.length ≤ intMax ∧ s.stepCall r call = { s.setCall r none with
        written := s.written ++ [(n, frame CUSTOM_MSG content.data)] } := by
  cases hchannel : s.channel with
  | none => cases call <;> exact Or.inr (Or.inl (by rw [stepCall, sendData, hchannel]))
  | some n =>
    cases call with
    | notNull content =>
      refine Or.inl ⟨.isActive content, ?_, rfl, Option.some_ne_none n⟩
      rw [stepCall, sendData, hchannel]
    | isActive content =>
      by_cases hactive : s.isActive n = true
      · refine Or.inl ⟨.write content, ?_, rfl, Option.some_ne_none n⟩
        rw [stepCall, sendData, hchannel]
        exact congrArg (s.setCall r) (if_pos hactive)
      · refine Or.inr (Or.inl ?_)
        rw [stepCall, sendData, hchannel]
        exact congrArg (s.setCall r) (if_neg hactive)
    | write content =>
      by_cases hint : 5 + content.length ≤ intMax
      · rw [stepCall_write hchannel hint]
        by_cases hactive : s.isActive n = true
        · exact Or.inr (Or.inr ⟨n, content, rfl, rfl, hactive, hint, if_pos hactive⟩)
        · exact Or.inr (Or.inl (if_neg hactive))
      · exact Or.inr (Or.inl (stepCall_overflow hchannel hint))

theorem stepCall_calls_of_ne {call : SendData} {r' : ℕ} (hr : r' ≠ r) :
    (s.stepCall r call).calls r' = s.calls r' := by
  rcases s.stepCall_cases r call with ⟨call', hnext, -⟩ | hover | ⟨n, content, -, -, -, -, hwrite⟩
  · rw [hnext, calls_setCall, if_neg hr]
  · rw [hover, calls_setCall, if_neg hr]
  · rw [hwrite]
    exact Function.update_of_ne hr ..

/-- A call that goes on keeps its content, and has found `channel` not null. -/
theorem stepCall_calls_self {call call' : SendData} (h : (s.stepCall r call).calls r = some call') :
    call'.content = call.content ∧ s.channel ≠ none ∧ s.stepCall r call = s.setCall r call' := by
  rcases s.stepCall_cases r call with
    ⟨call'', hnext, hcontent, hchannel⟩ | hover | ⟨n, content, -, -, -, -, hwrite⟩
  · rw [hnext, calls_setCall, if_pos rfl] at h
    obtain rfl := Option.some.inj h
    exact ⟨hcontent, hchannel, hnext⟩
  · rw [hover, calls_setCall, if_pos rfl] at h
    cases h
  · rw [hwrite] at h
    have hover : Function.update s.calls r none r = some call' := h
    rw [Function.update_self] at hover
    cases hover

@[simp] theorem doConnect_calls (s : Client) : s.doConnect.calls = s.calls := by
  unfold doConnect
  split
  · split_ifs <;> rfl
  · rfl

@[simp] theorem doConnect_written (s : Client) : s.doConnect.written = s.written := by
  unfold doConnect
  split
  · split_ifs <;> rfl
  · rfl

/-- What a step does to the calls: nothing, unless a call begins or takes its next step. -/
theorem calls_cases (h : s.step e = some t) :
    (e.thread? = none ∧ t.calls = s.calls ∧ t.written = s.written) ∨
    (∃ r content, e = .sendData r content ∧ s.calls r = none ∧
      t = s.setCall r (some (.notNull content))) ∨
    ∃ r call, e = .step r ∧ s.calls r = some call ∧ t = s.stepCall r call := by
  cases e with
  | sendData r content => exact Or.inr (Or.inl ⟨r, content, rfl, step_sendData h⟩)
  | step r =>
    obtain ⟨call, hcall, rfl⟩ := Option.map_eq_some_iff.1 h
    exact Or.inr (Or.inr ⟨r, call, rfl, hcall, rfl⟩)
  | success n | failure n | lose n =>
    simp only [step] at h
    split at h
    · exact Or.inl (Option.some.inj h ▸ ⟨rfl, rfl, rfl⟩)
    · cases h
  | operationComplete n =>
    simp only [step] at h
    split at h
    · exact Or.inl (Option.some.inj h ▸ ⟨rfl, rfl, rfl⟩)
    · exact Or.inl (Option.some.inj h ▸ ⟨rfl, rfl, rfl⟩)
    · exact Or.inl (Option.some.inj h ▸ ⟨rfl, rfl, rfl⟩)
    · cases h
  | run n | channelInactive n =>
    simp only [step] at h
    split at h
    · exact Or.inl (Option.some.inj h ▸ ⟨rfl, doConnect_calls _, doConnect_written _⟩)
    · cases h

/-- A step of a call leaves the attempts and `channel` alone. -/
theorem calls_of_step (h : s.step e = some t) (he : e.thread? = some r) :
    ∃ calls written, t = { s with calls := calls, written := written } := by
  rcases calls_cases h with ⟨hnot, -⟩ | ⟨r, content, -, -, rfl⟩ | ⟨r, call, -, -, rfl⟩
  · cases hnot.symm.trans he
  · exact ⟨_, s.written, rfl⟩
  · rcases s.stepCall_cases r call with ⟨call', hnext, -⟩ | hover | ⟨n, content, -, -, -, -, hwrite⟩
    · exact ⟨_, s.written, hnext⟩
    · exact ⟨_, s.written, hover⟩
    · exact ⟨_, _, hwrite⟩

theorem move_of_step (h : s.step e = some t) : Move s t := by
  cases e with
  | success n | failure n =>
    simp only [step] at h
    split at h
    · rename_i hstage
      obtain rfl := Option.some.inj h
      exact .turn (by simp [hstage, Stage.lifeline]) (by simp [Stage.lifeline])
        (by simp [hstage, Stage.listened])
    · cases h
  | operationComplete n =>
    simp only [step] at h
    split at h
    · rename_i hstage
      obtain rfl := Option.some.inj h
      exact .listen (by simp [hstage, Stage.lifeline]) (by simp [Stage.lifeline]) rfl
    · rename_i hstage
      obtain rfl := Option.some.inj h
      exact .listen (by simp [hstage, Stage.lifeline]) (by simp [Stage.lifeline]) rfl
    · rename_i hstage
      obtain rfl := Option.some.inj h
      exact .turn (by simp [hstage, Stage.lifeline]) (by simp [Stage.lifeline])
        (by simp [hstage, Stage.listened])
    · cases h
  | lose n =>
    simp only [step] at h
    split at h
    · rename_i listened hstage
      obtain rfl := Option.some.inj h
      exact .turn (by simp [hstage, Stage.lifeline]) (by simp [Stage.lifeline])
        (by simp [hstage, Stage.listened])
    · cases h
  | run n | channelInactive n =>
    simp only [step] at h
    split at h
    · rename_i hstage
      obtain rfl := Option.some.inj h
      exact .again (by simp [hstage, Stage.lifeline]) rfl
    · cases h
  | sendData r content | step r =>
    obtain ⟨calls, written, rfl⟩ := calls_of_step h rfl
    exact .send calls written

/-- Without an active connection, whatever `channel` refers to, there is a new attempt. -/
theorem doConnect_eq_connect (h : ∀ n, s.isActive n = false) : s.doConnect = s.connect := by
  unfold doConnect
  split
  · rename_i n _
    rw [if_neg (by simp [h n])]
  · rfl

/-! ## The invariant -/

/-- The attempt `k` is the last one and the only one that is not over, and `channel` refers to its
connection from the time the listener has run. -/
structure Current (s : Client) (k : ℕ) : Prop where
  connects : s.connects = k + 1
  live : (s.stage k).lifeline ≠ none
  ended : ∀ n, n < k → (s.stage n).lifeline = none
  unused : ∀ n, k < n → s.stage n = .unused
  channel : s.channel = some k ↔ (s.stage k).listened = true
  channel_le : ∀ n, s.channel = some n → n ≤ k

theorem Current.lifeline_of_ne (h : s.Current k) (hn : n ≠ k) : (s.stage n).lifeline = none := by
  rcases Nat.lt_or_gt_of_ne hn with hlt | hgt
  · exact h.ended n hlt
  · rw [h.unused n hgt]
    rfl

theorem Current.eq_of_lifeline (h : s.Current k) (hlive : (s.stage n).lifeline ≠ none) : n = k := by
  by_contra hn
  exact hlive (h.lifeline_of_ne hn)

/-- The attempt of an active channel is not over. -/
theorem Current.eq_of_active (h : s.Current k) (hactive : s.isActive n = true) : n = k := by
  by_contra hn
  cases (Stage.isActive_of_lifeline (h.lifeline_of_ne hn)).symm.trans hactive

theorem current_start : start.Current 0 where
  connects := rfl
  live := by simp [start, doConnect, stage_connect, Stage.lifeline]
  ended n hn := absurd hn (Nat.not_lt_zero n)
  unused n hn := by simp [start, doConnect, stage_connect, Nat.ne_of_gt hn]
  channel := by simp [start, doConnect, connect, setStage, Stage.listened]
  channel_le n hn := by simp [start, doConnect, connect, setStage] at hn

/-- The attempt goes on. -/
theorem Current.setStage (h : s.Current k) {stage : Stage} (hstage : stage.lifeline ≠ none)
    {channel : Option ℕ} (hchannel : channel = some k ↔ stage.listened = true)
    (hle : ∀ n, channel = some n → n ≤ k) :
    Current { s.setStage k stage with channel := channel } k where
  connects := h.connects
  live := by simpa [stage_setStage] using hstage
  ended n hn := by
    simpa [stage_setStage, Nat.ne_of_lt hn] using h.ended n hn
  unused n hn := by
    simpa [stage_setStage, Nat.ne_of_gt hn] using h.unused n hn
  channel := by simpa [stage_setStage] using hchannel
  channel_le := hle

/-- When the attempt is over there is nothing left, so `doConnect` does connect. -/
theorem Current.lifeline_of_over (h : s.Current k) {stage : Stage} (hover : stage.lifeline = none)
    (n : ℕ) : ((s.setStage k stage).stage n).lifeline = none := by
  rw [stage_setStage]
  split_ifs with hn
  · exact hover
  · exact h.lifeline_of_ne hn

theorem Current.doConnect_eq (h : s.Current k) {stage : Stage} (hover : stage.lifeline = none) :
    (s.setStage k stage).doConnect = (s.setStage k stage).connect :=
  doConnect_eq_connect fun n => Stage.isActive_of_lifeline (h.lifeline_of_over hover n)

/-- The attempt is over, and there is a new one. -/
theorem Current.again (h : s.Current k) {stage : Stage} (hover : stage.lifeline = none) :
    (s.setStage k stage).doConnect.Current (k + 1) := by
  have hconnects : (s.setStage k stage).connects = k + 1 := h.connects
  rw [h.doConnect_eq hover]
  exact {
    connects := congrArg (· + 1) hconnects
    live := by simp [stage_connect, hconnects, Stage.lifeline]
    ended := by
      intro n hn
      rw [stage_connect, hconnects, if_neg (Nat.ne_of_lt hn)]
      exact h.lifeline_of_over hover n
    unused := by
      intro n hn
      rw [stage_connect, hconnects, if_neg (Nat.ne_of_gt hn), stage_setStage, if_neg (by omega)]
      exact h.unused n (by omega)
    channel := by
      refine iff_of_false ?_ (by simp [stage_connect, hconnects, Stage.listened])
      intro hchannel
      exact Nat.not_succ_le_self k (h.channel_le _ hchannel)
    channel_le := fun n hn => Nat.le_succ_of_le (h.channel_le n hn) }

theorem Current.move (h : s.Current k) (hmove : Move s t) : t.Current k ∨ t.Current (k + 1) := by
  cases hmove with
  | send calls written =>
    exact Or.inl ⟨h.connects, h.live, h.ended, h.unused, h.channel, h.channel_le⟩
  | turn hlive hstage hlistened =>
    obtain rfl := h.eq_of_lifeline hlive
    exact Or.inl (h.setStage hstage (hlistened ▸ h.channel) h.channel_le)
  | listen hlive hstage hlistened =>
    obtain rfl := h.eq_of_lifeline hlive
    exact Or.inl (h.setStage hstage (by simp [hlistened]) fun n hn => (Option.some.inj hn).ge)
  | again hlive hover =>
    obtain rfl := h.eq_of_lifeline hlive
    exact Or.inr (h.again hover)

theorem current_reaches {es : List Event} (h : machine.Reaches es s) : ∃ k, s.Current k := by
  refine Machine.invariant (I := fun s => ∃ k, s.Current k) ⟨0, current_start⟩ ?_ h
  rintro s e t ⟨k, hcurrent⟩ hstep
  rcases hcurrent.move (move_of_step hstep) with hsame | hnext
  · exact ⟨k, hsame⟩
  · exact ⟨k + 1, hnext⟩

/-! ## The client never stops trying -/

/-- Something can happen that gives the client a connection to which `channel` refers. -/
def CanConnect (s : Client) : Prop :=
  ∃ es t n, machine.exec s es = some t ∧ t.stage n = .connected true ∧ t.channel = some n

theorem CanConnect.of_step (h : t.CanConnect) (hstep : s.step e = some t) : s.CanConnect := by
  obtain ⟨es, u, n, hexec, hconnected⟩ := h
  exact ⟨e :: es, u, n, Machine.exec_cons_eq_some.2 ⟨t, hstep, hexec⟩, hconnected⟩

/-- The listener runs, of an attempt that has succeeded. -/
theorem canConnect_of_connected (hstage : s.stage n = .connected false) : s.CanConnect := by
  have hstep : s.step (.operationComplete n) =
      some ((s.setStage n (.connected true)).operationComplete n true) := by
    simp [step, hstage]
  refine CanConnect.of_step ⟨[], _, n, rfl, ?_, rfl⟩ hstep
  exact (stage_setStage s n (.connected true) n).trans (if_pos rfl)

theorem canConnect_of_connecting (hstage : s.stage n = .connecting) : s.CanConnect := by
  have hstep : s.step (.success n) = some (s.setStage n (.connected false)) := by
    simp [step, hstage]
  exact (canConnect_of_connected ((stage_setStage s n _ n).trans (if_pos rfl))).of_step hstep

/-- The last attempt ends. -/
theorem Current.canConnect_of_over (h : s.Current k) (stage : Stage) (hover : stage.lifeline = none)
    (hstep : s.step e = some (s.setStage k stage).doConnect) : s.CanConnect := by
  refine (canConnect_of_connecting (n := k + 1) ?_).of_step hstep
  rw [h.doConnect_eq hover, stage_connect]
  exact if_pos h.connects.symm

theorem Current.canConnect_of_scheduled (h : s.Current k) (hstage : s.stage k = .scheduled) :
    s.CanConnect :=
  h.canConnect_of_over (e := .run k) .retried rfl (by simp [step, hstage])

theorem Current.canConnect_of_lost (h : s.Current k) (hstage : s.stage k = .lost true) :
    s.CanConnect :=
  h.canConnect_of_over (e := .channelInactive k) .closed rfl (by simp [step, hstage])

/-- Whatever has happened, the client can get a connection. -/
theorem Current.canConnect (h : s.Current k) : s.CanConnect := by
  cases hstage : s.stage k with
  | unused | retried | closed => exact absurd (by rw [hstage]; rfl) h.live
  | connecting => exact canConnect_of_connecting hstage
  | scheduled => exact h.canConnect_of_scheduled hstage
  | failed =>
    have hstep : s.step (.operationComplete k) = some (s.setStage k .scheduled) := by
      simp [step, hstage, operationComplete]
    have hnext : (s.setStage k .scheduled).Current k :=
      h.setStage (by simp [Stage.lifeline]) (h.channel.trans (by simp [hstage, Stage.listened]))
        h.channel_le
    have hscheduled : (s.setStage k .scheduled).stage k = .scheduled :=
      (stage_setStage s k _ k).trans (if_pos rfl)
    exact (hnext.canConnect_of_scheduled hscheduled).of_step hstep
  | connected listened =>
    cases listened with
    | true => exact ⟨[], s, k, rfl, hstage, h.channel.2 (by rw [hstage]; rfl)⟩
    | false => exact canConnect_of_connected hstage
  | lost listened =>
    cases listened with
    | true => exact h.canConnect_of_lost hstage
    | false =>
      have hstep : s.step (.operationComplete k) =
          some ((s.setStage k (.lost true)).operationComplete k true) := by
        simp [step, hstage]
      have hnext : ((s.setStage k (.lost true)).operationComplete k true).Current k :=
        h.setStage (by simp [Stage.lifeline]) (by simp [Stage.listened])
          fun n hn => (Option.some.inj hn).ge
      exact (hnext.canConnect_of_lost ((stage_setStage s k _ k).trans (if_pos rfl))).of_step hstep

/-! ## Every reached state -/

/-- The client has the lifeline, from attempt `n`. -/
def Has (s : Client) (n : ℕ) (x : Lifeline) : Prop := (s.stage n).lifeline = some x

/-- No callback is due for an attempt that has failed or a connection that is lost. -/
def Settled (s : Client) : Prop := ∀ n, s.stage n ≠ .failed ∧ ∀ b, s.stage n ≠ .lost b

/-- **The reconnect machine.** In every reached state the client has exactly one lifeline, once, and
when it has a connection whose listener has run, `channel` refers to that connection. So it never
has two active connections; and it never stops trying: when no callback is due, it has an attempt
whose future is not complete, a scheduled retry or an active connection, and nothing else; and it
can always get a connection. -/
theorem client_lifeline {es : List Event} (h : machine.Reaches es s) :
    (∃! p : ℕ × Lifeline, s.Has p.1 p.2) ∧
      (∀ n, s.Has n .connection → (s.stage n).listened = true → s.channel = some n) ∧
      (∀ m n, s.isActive m = true → s.isActive n = true → m = n) ∧
      (s.Settled → ∃ n, (∀ m, m ≠ n → (s.stage m).lifeline = none) ∧
        (s.stage n = .connecting ∨ s.stage n = .scheduled ∨ s.isActive n = true)) ∧
      s.CanConnect := by
  obtain ⟨k, hcurrent⟩ := current_reaches h
  refine ⟨?_, ?_, ?_, ?_, hcurrent.canConnect⟩
  · obtain ⟨x, hx⟩ := Option.ne_none_iff_exists'.1 hcurrent.live
    refine ⟨(k, x), hx, ?_⟩
    rintro ⟨n, y⟩ (hy : (s.stage n).lifeline = some y)
    obtain rfl := hcurrent.eq_of_lifeline (n := n) (by simp [hy])
    rw [Option.some.inj (hy.symm.trans hx)]
  · rintro n (hn : (s.stage n).lifeline = some .connection) hlistened
    obtain rfl := hcurrent.eq_of_lifeline (n := n) (by simp [hn])
    exact hcurrent.channel.2 hlistened
  · intro m n hm hn
    rw [hcurrent.eq_of_active hm, hcurrent.eq_of_active hn]
  · intro hsettled
    obtain ⟨hfailed, hlost⟩ := hsettled k
    refine ⟨k, fun m hm => hcurrent.lifeline_of_ne hm, ?_⟩
    have hlive := hcurrent.live
    cases hstage : s.stage k with
    | connecting => exact Or.inl rfl
    | scheduled => exact Or.inr (Or.inl rfl)
    | connected b => exact Or.inr (Or.inr (by rw [isActive, hstage]; rfl))
    | failed => exact absurd hstage hfailed
    | lost b => exact absurd hstage (hlost b)
    | unused | retried | closed => exact absurd (by rw [hstage]; rfl) hlive

/-- A client that fails to connect, and loses its next connection before its listener has run and
while `sendData` is between its check and its write. -/
theorem client_lifeline_run :
    let content : Bytes := ⟨[49, 50, 51], by decide⟩
    let es : List Event := [.sendData 0 content, .step 0, .failure 0, .operationComplete 0, .run 0,
      .success 1, .operationComplete 1, .sendData 0 content, .step 0, .step 0, .lose 1, .step 0,
      .channelInactive 1, .sendData 0 content, .success 2, .operationComplete 2]
    ∃ s, machine.Reaches es s ∧ s.written = [] ∧ s.Has 2 .connection ∧ s.channel = some 2 ∧
      ∃! p : ℕ × Lifeline, s.Has p.1 p.2 := by
  intro content es
  have hrun : (machine.exec machine.init es).map (fun s => (s.written, s.stage 2)) =
      some ([], .connected true) := by decide +kernel
  obtain ⟨s, hs, hlast⟩ := Option.map_eq_some_iff.1 hrun
  obtain ⟨hwritten, hstage⟩ := Prod.mk.inj hlast
  have hconnection : s.Has 2 .connection := by
    rw [Has, hstage]
    rfl
  obtain ⟨hone, hchannel, -⟩ := client_lifeline hs
  exact ⟨s, hs, hwritten, hconnection, hchannel 2 hconnection (by rw [hstage]; rfl), hone⟩

/-! ## The calls of `sendData` -/

/-- The field `channel` is not set to null again. -/
theorem channel_of_step (h : s.step e = some t) (hchannel : s.channel ≠ none) :
    t.channel ≠ none := by
  cases move_of_step h with
  | send calls written => exact hchannel
  | turn hlive hstage hlistened => exact hchannel
  | listen hlive hstage hlistened => exact Option.some_ne_none _
  | again hlive hover =>
    unfold doConnect
    split
    · split_ifs <;> exact hchannel
    · exact hchannel

/-- A call that has found `channel` not null finds it so from then on. -/
theorem channel_of_checked {es : List Event} (h : machine.Reaches es s) {call : SendData}
    (hcall : s.calls r = some call) (hchecked : call.checked = true) : s.channel ≠ none := by
  refine Machine.invariant (M := machine) (I := fun s => ∀ r call, s.calls r = some call →
    call.checked = true → s.channel ≠ none) ?_ ?_ h r call hcall hchecked
  · intro r call hcall
    cases hcall
  · intro s e t ih hstep r call hcall hchecked
    refine channel_of_step hstep ?_
    rcases calls_cases hstep with
      ⟨-, hcalls, -⟩ | ⟨r', content, -, -, rfl⟩ | ⟨r', call', -, -, rfl⟩
    · exact ih r call (hcalls ▸ hcall) hchecked
    · rw [calls_setCall] at hcall
      split_ifs at hcall
      · obtain rfl := Option.some.inj hcall
        cases hchecked
      · exact ih r call hcall hchecked
    · by_cases hr : r = r'
      · subst hr
        exact (stepCall_calls_self hcall).2.1
      · exact ih r call (stepCall_calls_of_ne hr ▸ hcall) hchecked

/-- A `NullPointerException` comes from a check or a write that finds `channel` null. -/
theorem checked_of_null {call : SendData} (h : s.sendData r call = .error .nullPointer) :
    call.checked = true ∧ s.channel = none := by
  cases hchannel : s.channel with
  | none =>
    cases call with
    | notNull content =>
      rw [sendData, hchannel] at h
      cases h
    | isActive content | write content => exact ⟨rfl, rfl⟩
  | some n =>
    cases call with
    | notNull content | isActive content =>
      rw [sendData, hchannel] at h
      cases h
    | write content =>
      rw [sendData, hchannel] at h
      by_cases hint : 5 + content.length ≤ intMax
      · have hbuf : sendDataBuf content = .ok _ := customBuf_eq hint
        rw [hbuf] at h
        cases h
      · have hbuf : sendDataBuf content = .error .illegalArgument :=
          customBuf_overflow (Nat.lt_of_not_le hint)
        rw [hbuf] at h
        cases h

/-- **No call of `sendData` finds `channel` null after its first check.** -/
theorem sendData_never_null {es : List Event} (h : machine.Reaches es s) {call : SendData}
    (hcall : s.calls r = some call) : s.sendData r call ≠ .error .nullPointer := by
  intro hnull
  obtain ⟨hchecked, hchannel⟩ := checked_of_null hnull
  exact channel_of_checked h hcall hchecked hchannel

/-- An active channel that `sendData` finds is that of the last attempt, whose listener has run. -/
theorem Current.found (h : s.Current k) (hchannel : s.channel = some n)
    (hactive : s.isActive n = true) : n = k ∧ s.stage k = .connected true := by
  obtain rfl := h.eq_of_active hactive
  exact ⟨rfl, Stage.eq_connected hactive (h.channel.1 hchannel)⟩

/-- In every reached state, the write of a call goes to the connection whose listener has run, and
without one it does nothing. -/
theorem sendData_reaches {es : List Event} (h : machine.Reaches es s) {content : Bytes}
    (hcall : s.calls r = some (.write content)) (hint : 5 + content.length ≤ intMax) :
    (∃ n, s.stage n = .connected true ∧ s.sendData r (.write content) =
      .ok { s.setCall r none with
        written := s.written ++ [(n, frame CUSTOM_MSG content.data)] }) ∨
    ((∀ n, s.stage n ≠ .connected true) ∧
      s.sendData r (.write content) = .ok (s.setCall r none)) := by
  obtain ⟨k, hcurrent⟩ := current_reaches h
  obtain ⟨n, hchannel⟩ := Option.ne_none_iff_exists'.1 (channel_of_checked h hcall rfl)
  have hbuf : sendDataBuf content = .ok (.wrap (frame CUSTOM_MSG content.data)) :=
    customBuf_eq hint
  have hsend : s.sendData r (.write content) =
      .ok ((s.setCall r none).writeAndFlush n (.wrap (frame CUSTOM_MSG content.data))) := by
    rw [sendData, hchannel, hbuf]
    rfl
  by_cases hactive : s.isActive n = true
  · obtain ⟨rfl, hconnected⟩ := hcurrent.found hchannel hactive
    exact Or.inl ⟨n, hconnected, hsend.trans (congrArg Except.ok (if_pos hactive))⟩
  · refine Or.inr ⟨?_, hsend.trans (congrArg Except.ok (if_neg hactive))⟩
    intro m hm
    obtain rfl := hcurrent.eq_of_lifeline (n := m) (by simp [hm, Stage.lifeline])
    have hfield : s.channel = some m := hcurrent.channel.2 (by rw [hm]; rfl)
    obtain rfl := Option.some.inj (hfield.symm.trans hchannel)
    exact hactive (by rw [isActive, hm]; rfl)

end Client

end MmtxSample
