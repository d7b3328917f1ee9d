import MmtxSample.Endpoint
import MmtxSample.Lib.Machine

/-!
# Replies of the server

One server channel gets well-formed frames and pushes in any order. What it owes the peer is a pong
for each ping, an echo for each custom frame and the frame of each push (`reply`). Pongs and pushes
are written with `writeAndFlush`; the echo of `ServerHandler.handleData` is only written.

So the outbound buffer always holds the right frames in the right order (`Run.writes`), and what is
missing on the wire is the echoes since the last ping or push (`Run.pending`).

* `flushed_iff_settled`: after a sequence of events the peer has all its replies exactly when each
  custom frame has been followed by a ping or a push.
* `replies_sent_iff`: it has all its replies after *every* event exactly when there is no custom
  frame among the events.
-/

namespace MmtxSample

open Java Netty CustomHeartbeatHandler Framing

/-- What happens at a server channel: a frame arrives, or a request pushes a message. -/
inductive ServerEvent
  | ping
  | pong
  | custom (payload : List UInt8) (le : payload.length ≤ 1019)
  | push (msg : Bytes) (le : 5 + msg.length ≤ intMax)

namespace ServerEvent

/-- The server handles the event. -/
def handle (e : Endpoint) : ServerEvent → Endpoint
  | ping => e.channelRead Side.server.handler (frame PING_MSG [])
  | pong => e.channelRead Side.server.handler (frame PONG_MSG [])
  | custom payload _ => e.channelRead Side.server.handler (frame CUSTOM_MSG payload)
  | push msg _ => { e with context := e.context.insertRow msg }

/-- The frames the event earns the peer. -/
def reply : ServerEvent → List (List UInt8)
  | ping => [frame PONG_MSG []]
  | pong => []
  | custom payload _ => [frame CUSTOM_MSG payload]
  | push msg _ => [frame CUSTOM_MSG msg.data]

/-- The events after which nothing is pending. -/
def Flushes : ServerEvent → Prop
  | ping | push _ _ => True
  | pong | custom _ _ => False

def IsCustom : ServerEvent → Prop
  | custom _ _ => True
  | _ => False

/-- The server channel after the events, in order. -/
def run (es : List ServerEvent) : Endpoint := es.foldl handle Endpoint.initial

/-- The bytes sent to the peer. -/
def flushed (es : List ServerEvent) : List UInt8 := (run es).context.outbound.sent.flatten

/-- The bytes the peer is to get. -/
def replies (es : List ServerEvent) : List UInt8 := (es.flatMap reply).flatten

/-- The echoes written since the last ping or push. -/
def unflushed (es : List ServerEvent) : List (List UInt8) :=
  es.foldl (fun echoes event =>
    match event with
    | ping | push _ _ => []
    | pong => echoes
    | custom payload _ => echoes ++ [frame CUSTOM_MSG payload]) []

/-! ## One event -/

/-- What a run keeps: the decoder holds nothing, and the outbound buffer has been given exactly the
replies, of which the echoes since the last flush are pending. -/
structure Run (es : List ServerEvent) (e : Endpoint) : Prop where
  reader : e.reader = Reader.empty
  isActive : e.context.isActive = true
  writes : e.context.outbound.writes = es.flatMap reply
  pending : e.context.outbound.pending = unflushed es

theorem unflushed_snoc (es : List ServerEvent) (event : ServerEvent) :
    unflushed (es ++ [event]) =
      match event with
      | ping | push _ _ => []
      | pong => unflushed es
      | custom payload _ => unflushed es ++ [frame CUSTOM_MSG payload] := by
  simp [unflushed]

/-- A frame of known type, read alone, keeps `Run` when the buffer gets what the event earns. -/
theorem Run.channelRead {es : List ServerEvent} {e : Endpoint} (h : Run es e)
    (event : ServerEvent) (type : UInt8) {payload : List UInt8} (hle : payload.length ≤ 1019)
    (hwrites : (e.context.fire Side.server.handler (frame type payload)).outbound.writes =
      es.flatMap reply ++ event.reply)
    (hpending : (e.context.fire Side.server.handler (frame type payload)).outbound.pending =
      unflushed (es ++ [event])) :
    Run (es ++ [event]) (e.channelRead Side.server.handler (frame type payload)) := by
  rw [Endpoint.channelRead_frame _ h.reader (frame_framed type hle)]
  exact {
    reader := h.reader
    isActive := (HandlerContext.isActive_fire .server e.context type payload).trans h.isActive
    writes := by simpa using hwrites
    pending := hpending }

theorem Run.handle {es : List ServerEvent} {e : Endpoint} (h : Run es e) (event : ServerEvent) :
    Run (es ++ [event]) (event.handle e) := by
  have hfire := HandlerContext.outbound_fire .server e.context
  cases event with
  | ping =>
    have hping : _ = e.context.outbound.writeAndFlush (frame PONG_MSG []) := hfire PING_MSG []
    exact h.channelRead ping PING_MSG (by simp) (by simp [hping, h.writes, reply])
      (by simp [hping, unflushed_snoc])
  | pong =>
    have hpong : _ = e.context.outbound := hfire PONG_MSG []
    exact h.channelRead pong PONG_MSG (by simp) (by simp [hpong, h.writes, reply])
      (by simp [hpong, unflushed_snoc, h.pending])
  | custom payload le =>
    have hcustom : _ = e.context.outbound.write (frame CUSTOM_MSG payload) :=
      hfire CUSTOM_MSG payload
    exact h.channelRead (custom payload le) CUSTOM_MSG le (by simp [hcustom, h.writes, reply])
      (by simp [hcustom, unflushed_snoc, h.pending])
  | push msg le =>
    show Run _ { e with context := e.context.insertRow msg }
    rw [HandlerContext.insertRow_eq h.isActive le]
    exact ⟨h.reader, h.isActive, by simp [h.writes, reply], by simp [unflushed_snoc]⟩

/-! ## Whole runs -/

theorem run_snoc (es : List ServerEvent) (event : ServerEvent) :
    run (es ++ [event]) = event.handle (run es) := by
  simp [run]

theorem run_run (es : List ServerEvent) : Run es (run es) := by
  induction es using List.reverseRecOn with
  | nil => exact ⟨rfl, rfl, rfl, rfl⟩
  | append_singleton es event ih => exact run_snoc es event ▸ ih.handle event

/-- Each custom frame has been followed by a ping or a push. -/
def Settled (es : List ServerEvent) : Prop :=
  ∀ pre event post, es = pre ++ event :: post → event.IsCustom → ∃ later ∈ post, later.Flushes

theorem settled_snoc (es : List ServerEvent) (event : ServerEvent) :
    Settled (es ++ [event]) ↔ event.Flushes ∨ (Settled es ∧ ¬ event.IsCustom) := by
  constructor
  · intro h
    by_cases hflush : event.Flushes
    · exact Or.inl hflush
    · refine Or.inr ⟨?_, ?_⟩
      · intro pre x post hes hx
        obtain ⟨later, hlater, hf⟩ := h pre x (post ++ [event]) (by simp [hes]) hx
        rcases List.mem_append.1 hlater with hpost | hlast
        · exact ⟨later, hpost, hf⟩
        · exact absurd (List.mem_singleton.1 hlast ▸ hf) hflush
      · intro hcustom
        obtain ⟨later, hlater, -⟩ := h es event [] rfl hcustom
        cases hlater
  · intro h pre x post hes hx
    rcases TransitionSystem.snoc_eq_append_cons.1 hes with ⟨rfl, rfl, rfl⟩ | ⟨post', rfl, rfl⟩
    · rcases h with hflush | ⟨-, hcustom⟩
      · cases x <;> simp_all [Flushes, IsCustom]
      · exact absurd hx hcustom
    · rcases h with hflush | ⟨hsettled, -⟩
      · exact ⟨event, by simp, hflush⟩
      · obtain ⟨later, hlater, hf⟩ := hsettled pre x post' rfl hx
        exact ⟨later, List.mem_append_left _ hlater, hf⟩

theorem unflushed_eq_nil_iff (es : List ServerEvent) : unflushed es = [] ↔ Settled es := by
  induction es using List.reverseRecOn with
  | nil => exact ⟨fun _ pre event post h => by simp at h, fun _ => rfl⟩
  | append_singleton es event ih =>
    rw [unflushed_snoc, settled_snoc, ← ih]
    cases event <;> simp [Flushes, IsCustom]

theorem unflushed_length (es : List ServerEvent) : ∀ f ∈ unflushed es, f ≠ [] := by
  induction es using List.reverseRecOn with
  | nil => simp [unflushed]
  | append_singleton es event ih =>
    rw [unflushed_snoc]
    cases event with
    | ping => simp
    | pong => exact ih
    | custom payload _ =>
      intro f hf
      rcases List.mem_append.1 hf with hf | hf
      · exact ih f hf
      · rw [List.mem_singleton.1 hf]
        simp [frame]
    | push => simp

/-- **When the peer has its replies.** After a sequence of events, the bytes sent are the replies,
in order, exactly when each custom frame has been followed by a ping or a push. -/
theorem flushed_iff_settled (es : List ServerEvent) : flushed es = replies es ↔ Settled es := by
  have h := run_run es
  have hreplies : replies es = flushed es ++ (unflushed es).flatten := by
    rw [replies, ← h.writes, Outbound.writes, List.flatten_append, h.pending, flushed]
  rw [hreplies, List.self_eq_append_right, List.flatten_eq_nil_iff, ← unflushed_eq_nil_iff]
  constructor
  · intro hnil
    rcases hes : unflushed es with _ | ⟨f, fs⟩
    · rfl
    · have hf : f ∈ unflushed es := by rw [hes]; exact List.mem_cons_self
      exact absurd (hnil f hf) (unflushed_length es f hf)
  · intro hnil f hf
    rw [hnil] at hf
    cases hf

/-- **When every reply is sent at once.** In a run of the server channel the bytes sent are the
replies after every event, exactly when no event of the run is a custom frame. -/
theorem replies_sent_iff (es : List ServerEvent) :
    (∀ p, p <+: es → flushed p = replies p) ↔ ∀ event ∈ es, ¬ event.IsCustom := by
  constructor
  · intro h event hevent hcustom
    obtain ⟨pre, post, rfl⟩ := List.append_of_mem hevent
    have hsettled := (flushed_iff_settled (pre ++ [event])).1 (h _ ⟨post, by simp⟩)
    obtain ⟨later, hlater, -⟩ := hsettled pre event [] rfl hcustom
    cases hlater
  · intro h p hp
    rw [flushed_iff_settled]
    intro pre event post hes hcustom
    exact absurd hcustom (h event (hp.subset (by simp [hes])))

/-- One custom frame of three bytes: its echo is written and nothing is sent, until a ping
arrives. -/
theorem echo_not_sent :
    let payload : List UInt8 := [49, 50, 51]
    let echo : List UInt8 := [0, 0, 0, 8, 3, 49, 50, 51]
    flushed [custom payload (by decide)] = [] ∧ replies [custom payload (by decide)] = echo ∧
      flushed [custom payload (by decide), ping] = echo ++ [0, 0, 0, 5, 2] := by
  decide

end ServerEvent

end MmtxSample
