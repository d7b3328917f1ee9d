import MmtxSample.Lib.Latency
import MmtxSample.Link
import MmtxSample.Netty.IdleStateHandler

/-!
# The heartbeat over a slow network

A `TimedLink` is a link of two ends with the idle handlers of their pipelines and a clock. A byte
that an end flushes is on its way for up to `lag` nanoseconds, and the other end reads the bytes in
as many pieces as the network makes of them. Each piece restarts the reader's clock, also when no
frame is complete.

The client's clock is restarted by reads too, so each pong holds its next ping back. The two clocks
are those of `KeepAlive.Lagged`, and a step keeps their invariant (`Sound.carry`). `latency_iff` is
the latency that the settings stand: the server never times out a client, pushes being early,
exactly when twice the latency is less than 5 seconds.
-/

namespace MmtxSample

open Java Netty CustomHeartbeatHandler TransitionSystem

/-- How many bytes have been flushed. -/
def HandlerContext.flushed (c : HandlerContext) : ℕ := c.outbound.sent.flatten.length

/-- The stamps are the times at which the bytes were flushed. -/
structure TimedLink where
  link : Link
  now : ℕ
  clientIdle : IdleStateHandler
  serverIdle : IdleStateHandler
  clientStamps : List ℕ
  serverStamps : List ℕ

namespace TimedLink

inductive Action
  | wait (d : ℕ)
  | link (a : Link.Action)
  /-- `READER_IDLE` at the server -/
  | readerIdle

def initial : TimedLink := ⟨.initial, 0, .ofSeconds 0 0 5, .ofSeconds 10 0 0, [], []⟩

/-- When the bytes on their way to the server were flushed. -/
def toServer (s : TimedLink) : List ℕ := s.clientStamps.drop s.link.serverRead

/-- When the bytes on their way to the client were flushed. -/
def toClient (s : TimedLink) : List ℕ := s.serverStamps.drop s.link.clientRead

/-- The client's timer fires when its time is up, and there is no read of nothing. -/
def Fires (s : TimedLink) : Link.Action → Prop
  | .allIdle => s.clientIdle.due s.now .allIdle = true
  | .serverReads n | .clientReads n => 0 < n
  | .sendData _ | .push _ => True

instance (s : TimedLink) : DecidablePred s.Fires := fun
  | .allIdle => inferInstanceAs (Decidable (s.clientIdle.due s.now .allIdle = true))
  | .serverReads n | .clientReads n => Nat.decLt 0 n
  | .sendData _ | .push _ => isTrue trivial

/-- The end reads something in the action. -/
def readBy (side : Side) : Link.Action → Bool
  | .clientReads _ => side = .client
  | .serverReads _ => side = .server
  | .allIdle | .sendData _ | .push _ => false

/-- The idle handler of an end that may have read something, and whose context may have flushed
something. -/
def restart (idle : IdleStateHandler) (now : ℕ) (read : Bool) (c c' : HandlerContext) :
    IdleStateHandler :=
  let idle := if read then idle.channelRead now else idle
  if c.flushed < c'.flushed then idle.writeComplete now else idle

def stamp (stamps : List ℕ) (now : ℕ) (c c' : HandlerContext) : List ℕ :=
  stamps ++ List.replicate (c'.flushed - c.flushed) now

/-- What an action that makes `link` of the link means to the clocks. -/
def carry (s : TimedLink) (a : Link.Action) (link : Link) : TimedLink where
  link := link
  now := s.now
  clientIdle := restart s.clientIdle s.now (readBy .client a) s.link.client.context
    link.client.context
  serverIdle := restart s.serverIdle s.now (readBy .server a) s.link.server.context
    link.server.context
  clientStamps := stamp s.clientStamps s.now s.link.client.context link.client.context
  serverStamps := stamp s.serverStamps s.now s.link.server.context link.server.context

/-- Time passes only up to the next event of an idle handler, and while no byte is late. Once the
server has closed the channel nothing happens on it. -/
def step (lag : ℕ) (s : TimedLink) (a : Action) : Option TimedLink :=
  if s.link.server.context.isActive then
    match a with
    | .wait d =>
      if s.clientIdle.quietUntil (s.now + d) ∧ s.serverIdle.quietUntil (s.now + d) ∧
          ∀ t ∈ s.toServer ++ s.toClient, s.now + d ≤ t + lag then
        some { s with now := s.now + d }
      else none
    | .link a => if s.Fires a then (s.link.step a).map (s.carry a) else none
    | .readerIdle =>
      if s.serverIdle.due s.now .readerIdle then some { s with
        link.server.context :=
          s.link.server.context.userEventTriggered Side.server.handler .readerIdle }
      else none
  else none

def machine (lag : ℕ) : Machine TimedLink Action := ⟨initial, step lag⟩

/-- Every push comes early: the server's clock has more than `5 s + 2 * lag` to run. -/
def PushesEarly (lag : ℕ) (as : List Action) : Prop :=
  ∀ pre msg s, pre ++ [.link (.push msg)] <+: as → (machine lag).Reaches pre s →
    s.now + seconds 5 + 2 * lag < s.serverIdle.lastReadTime + seconds 10

/-- The server cannot reach `handleReaderIdle`, and it has not closed the channel. -/
def KeptAlive (lag : ℕ) (s : TimedLink) : Prop :=
  s.step lag .readerIdle = none ∧ s.link.server.context.isActive = true

variable {lag : ℕ} {s t : TimedLink} {as : List Action} {idle : IdleStateHandler} {now : ℕ}
  {read : Bool} {c c' : HandlerContext}

/-! ## The handlers of the two ends -/

@[simp] theorem restart_settings : (restart idle now read c c').settings = idle.settings := by
  unfold restart
  cases read <;> dsimp only <;> split_ifs <;> rfl

@[simp] theorem restart_lastReadTime :
    (restart idle now read c c').lastReadTime = if read then now else idle.lastReadTime := by
  unfold restart
  cases read <;> dsimp only <;> split_ifs <;> rfl

/-- A read or a write restarts the clock that both restart. -/
theorem restart_touched (h : max idle.lastReadTime idle.lastWriteTime ≤ now) :
    max (restart idle now read c c').lastReadTime (restart idle now read c c').lastWriteTime =
      if read ∨ c.flushed < c'.flushed then now
      else max idle.lastReadTime idle.lastWriteTime := by
  obtain ⟨hread, hwrite⟩ := Nat.max_le.1 h
  unfold restart
  cases read <;> by_cases hflushed : c.flushed < c'.flushed <;>
    simp [hflushed, IdleStateHandler.channelRead, IdleStateHandler.writeComplete, hread, hwrite]

/-! ## What is flushed -/

theorem flushed_le (h : Link.Grows c c') : c.flushed ≤ c'.flushed :=
  (Link.flatten_mono h.sent).length_le

/-! ## The clocks -/

/-- The clocks of the two idle handlers, and the bytes on their way. -/
def clocks (s : TimedLink) : KeepAlive.Lagged where
  now := s.now
  touched := max s.clientIdle.lastReadTime s.clientIdle.lastWriteTime
  heard := s.serverIdle.lastReadTime
  toWatcher := s.toServer
  toSpeaker := s.toClient

/-- Every byte has its stamp. -/
structure Wired (s : TimedLink) : Prop where
  clientStamps : s.clientStamps.length = s.link.client.context.flushed
  serverStamps : s.serverStamps.length = s.link.server.context.flushed
  serverRead_le : s.link.serverRead ≤ s.clientStamps.length
  clientRead_le : s.link.clientRead ≤ s.serverStamps.length
  clientIdle : s.clientIdle.settings = (0, 0, seconds 5)
  serverIdle : s.serverIdle.settings = (seconds 10, 0, 0)

theorem wired_initial : Wired initial where
  clientStamps := rfl
  serverStamps := rfl
  serverRead_le := Nat.le_refl _
  clientRead_le := Nat.le_refl _
  clientIdle := rfl
  serverIdle := rfl

theorem length_stamp {stamps : List ℕ} (h : stamps.length = c.flushed)
    (hgrows : c.flushed ≤ c'.flushed) : (stamp stamps now c c').length = c'.flushed := by
  rw [stamp, List.length_append, List.length_replicate]
  omega

theorem Wired.carry (h : Wired s) (a : Link.Action) {link : Link}
    (hclient : Link.Grows s.link.client.context link.client.context)
    (hserver : Link.Grows s.link.server.context link.server.context)
    (hserverRead : link.serverRead ≤ s.clientStamps.length)
    (hclientRead : link.clientRead ≤ s.serverStamps.length) : Wired (s.carry a link) where
  clientStamps := length_stamp h.clientStamps (flushed_le hclient)
  serverStamps := length_stamp h.serverStamps (flushed_le hserver)
  serverRead_le := hserverRead.trans (by simp [TimedLink.carry, stamp])
  clientRead_le := hclientRead.trans (by simp [TimedLink.carry, stamp])
  clientIdle := restart_settings.trans h.clientIdle
  serverIdle := restart_settings.trans h.serverIdle

/-- What an action does to the clocks. -/
theorem clocks_carry (htouched : s.clocks.touched ≤ s.now) (a : Link.Action) (link : Link)
    (hserverRead : link.serverRead ≤ s.clientStamps.length)
    (hclientRead : link.clientRead ≤ s.serverStamps.length) :
    (s.carry a link).clocks = {
      now := s.now
      touched := if readBy .client a ∨
          s.link.client.context.flushed < link.client.context.flushed then s.now
        else s.clocks.touched
      heard := if readBy .server a then s.now else s.clocks.heard
      toWatcher := s.clientStamps.drop link.serverRead ++ List.replicate
        (link.client.context.flushed - s.link.client.context.flushed) s.now
      toSpeaker := s.serverStamps.drop link.clientRead ++ List.replicate
        (link.server.context.flushed - s.link.server.context.flushed) s.now } := by
  have hmax : max s.clientIdle.lastReadTime s.clientIdle.lastWriteTime ≤ s.now := htouched
  simp only [clocks, carry, toServer, toClient, stamp,
    List.drop_append_of_le_length hserverRead, List.drop_append_of_le_length hclientRead]
  rw [restart_touched hmax, restart_lastReadTime]

/-- The invariant of `KeepAlive`, with the settings of the two ends. -/
def InTime (lag : ℕ) (s : TimedLink) : Prop :=
  KeepAlive.InTime (seconds 5) (seconds 10) lag s.clocks

/-- Nothing was flushed, or the clock was restarted. -/
theorem ite_flushed (m n x y : ℕ) :
    (if (false : Bool) = true ∨ m < n then x else y) = if n - m = 0 then y else x := by
  by_cases h : m < n
  · rw [if_pos (Or.inr h), if_neg (Nat.sub_ne_zero_of_lt h)]
  · rw [if_neg (by simpa using h), if_pos (Nat.sub_eq_zero_of_le (Nat.le_of_not_lt h))]

/-- The client has done something of its own accord. -/
theorem InTime.client (h : s.InTime lag) (hw : Wired s) {a : Link.Action} {link : Link}
    (hclient : readBy .client a = false) (hserver : readBy .server a = false)
    (hlink : link.server = s.link.server) (hserverRead : link.serverRead = s.link.serverRead)
    (hclientRead : link.clientRead = s.link.clientRead) : (s.carry a link).InTime lag := by
  have hclocks := clocks_carry h.touched_le a link (hserverRead.trans_le hw.serverRead_le)
    (hclientRead.trans_le hw.clientRead_le)
  rw [hclient, hserver, hserverRead, hclientRead, hlink, ite_flushed, Nat.sub_self,
    List.replicate_zero, List.append_nil] at hclocks
  rw [InTime, hclocks]
  exact KeepAlive.InTime.speak h
    (link.client.context.flushed - s.link.client.context.flushed)

/-- The server pushes early. -/
theorem InTime.push (h : s.InTime lag) (hw : Wired s) (msg : Bytes)
    (hearly : s.now + seconds 5 + 2 * lag < s.serverIdle.lastReadTime + seconds 10) :
    (s.carry (.push msg) (s.link.pushes msg)).InTime lag := by
  have hclocks := clocks_carry h.touched_le (.push msg) (s.link.pushes msg) hw.serverRead_le
    hw.clientRead_le
  have hsame : (s.link.pushes msg).client = s.link.client := rfl
  have hclient : readBy .client (.push msg) = false := rfl
  rw [hclient, hsame, ite_flushed, Nat.sub_self, List.replicate_zero, List.append_nil] at hclocks
  rw [InTime, hclocks]
  exact KeepAlive.InTime.push h
    ((s.link.pushes msg).server.context.flushed - s.link.server.context.flushed) hearly

/-- The server reads. -/
theorem InTime.serverReads (h : s.InTime lag) (hw : Wired s) (hlag : 2 * lag < seconds 5) {n : ℕ}
    {link : Link} (hserverRead : link.serverRead = s.link.serverRead + n)
    (hle : link.serverRead ≤ s.clientStamps.length)
    (hclientRead : link.clientRead = s.link.clientRead) (hlink : link.client = s.link.client) :
    (s.carry (.serverReads n) link).InTime lag := by
  have hclocks := clocks_carry h.touched_le (.serverReads n) link hle
    (hclientRead.trans_le hw.clientRead_le)
  have hclient : readBy .client (.serverReads n) = false := rfl
  rw [hclient, hlink, hclientRead, hserverRead, ite_flushed, Nat.sub_self, List.replicate_zero,
    List.append_nil] at hclocks
  rw [InTime, hclocks]
  have hrest : s.clientStamps.drop (s.link.serverRead + n) ⊆ s.toServer := by
    rw [toServer, ← List.drop_drop]
    exact List.drop_subset _ _
  exact KeepAlive.InTime.hear h (by unfold seconds at *; omega) hrest
    (link.server.context.flushed - s.link.server.context.flushed)

/-- The client reads something. -/
theorem InTime.clientReads (h : s.InTime lag) (hw : Wired s) {n : ℕ} (hpos : 0 < n) {link : Link}
    (hclientRead : link.clientRead = s.link.clientRead + n)
    (hle : link.clientRead ≤ s.serverStamps.length)
    (hserverRead : link.serverRead = s.link.serverRead) (hlink : link.server = s.link.server) :
    (s.carry (.clientReads n) link).InTime lag := by
  have hclocks := clocks_carry h.touched_le (.clientReads n) link
    (hserverRead.trans_le hw.serverRead_le) hle
  have hclient : readBy .client (.clientReads n) = true := rfl
  rw [hclient, hlink, hclientRead, hserverRead, if_pos (Or.inl rfl), Nat.sub_self,
    List.replicate_zero, List.append_nil] at hclocks
  rw [InTime, hclocks]
  have hrest : s.serverStamps.drop (s.link.clientRead + n) ⊆ s.toClient := by
    rw [toClient, ← List.drop_drop]
    exact List.drop_subset _ _
  have hsome : s.toClient ≠ [] := by
    rw [toClient, ne_eq, List.drop_eq_nil_iff]
    omega
  obtain ⟨t, ht⟩ := List.exists_mem_of_ne_nil _ hsome
  have hspeak := (KeepAlive.InTime.touch h ht hrest).speak
    (link.client.context.flushed - s.link.client.context.flushed)
  rw [ite_self] at hspeak
  exact hspeak

/-! ## One step -/

/-- Between two steps: every byte has its stamp, the clocks are in time, and the ends have only done
what the ends of a link do. -/
structure Sound (lag : ℕ) (s : TimedLink) : Prop where
  wired : Wired s
  inTime : s.InTime lag
  link : ∃ as, Link.machine.Reaches as s.link

theorem sound_initial (hlag : 2 * lag < seconds 5) : Sound lag initial where
  wired := wired_initial
  inTime := KeepAlive.InTime.initial (by unfold seconds at *; omega)
  link := ⟨[], rfl⟩

/-- The server's timer has not fired, and the server has not closed the channel. -/
theorem Sound.keptAlive (h : Sound lag s) : KeptAlive lag s := by
  have hnot : ¬ s.serverIdle.due s.now .readerIdle = true := by
    intro hdue
    obtain ⟨-, hdue⟩ := (IdleStateHandler.due_of_reader h.wired.serverIdle
      (seconds_ne_zero (by decide)) _ _).1 hdue
    exact absurd hdue (Nat.not_le_of_lt h.inTime.not_due)
  obtain ⟨as, has⟩ := h.link
  obtain ⟨ks, e, he, hmatches⟩ := Link.link_refines.reaches has
  have hactive : s.link.server.context.isActive = true :=
    hmatches.server.isActive.symm.trans (Exchange.inv_reaches he).server_active
  exact ⟨by rw [TimedLink.step, if_pos hactive]; exact if_neg hnot, hactive⟩

theorem Sound.wait (h : Sound lag s) {d : ℕ} (hclient : s.clientIdle.quietUntil (s.now + d) = true)
    (hlate : ∀ t ∈ s.toServer ++ s.toClient, s.now + d ≤ t + lag) :
    Sound lag { s with now := s.now + d } where
  wired := { h.wired with }
  inTime := KeepAlive.InTime.wait h.inTime ((IdleStateHandler.quietUntil_of_all h.wired.clientIdle
    (seconds_ne_zero (by decide)) _).1 hclient) hlate
  link := h.link

/-- The number of bytes that can be read. -/
theorem length_unread (c : HandlerContext) (read : ℕ) :
    (Link.unread c read).length = c.flushed - read := List.length_drop

theorem Sound.carry (h : Sound lag s) (hlag : 2 * lag < seconds 5) {a : Link.Action}
    (hfires : s.Fires a)
    (hearly : ∀ msg, a = .push msg →
      s.now + seconds 5 + 2 * lag < s.serverIdle.lastReadTime + seconds 10)
    {link : Link} (hstep : s.link.step a = some link) : Sound lag (s.carry a link) := by
  have hw := h.wired
  suffices hkept : Wired (s.carry a link) ∧ (s.carry a link).InTime lag by
    obtain ⟨as, has⟩ := h.link
    exact ⟨hkept.1, hkept.2, as ++ [a], Machine.reaches_snoc.2 ⟨s.link, has, hstep⟩⟩
  cases a with
  | allIdle =>
    obtain rfl := Option.some.inj hstep
    have hgrows := Link.Grows.userEventTriggered Side.client.handler s.link.client.context .allIdle
    exact ⟨hw.carry _ hgrows (.refl _) hw.serverRead_le hw.clientRead_le,
      h.inTime.client hw rfl rfl rfl rfl rfl⟩
  | sendData content =>
    obtain rfl := Option.some.inj hstep
    exact ⟨hw.carry _ (.sendData _ _) (.refl _) hw.serverRead_le hw.clientRead_le,
      h.inTime.client hw rfl rfl rfl rfl rfl⟩
  | push msg =>
    obtain rfl := Option.some.inj hstep
    exact ⟨hw.carry _ (.refl _) (.insertRow _ _) hw.serverRead_le hw.clientRead_le,
      h.inTime.push hw msg (hearly msg rfl)⟩
  | serverReads n =>
    obtain ⟨hn, hstep⟩ := Option.ite_none_right_eq_some.1 hstep
    obtain rfl := Option.some.inj hstep
    have hle : s.link.serverRead + n ≤ s.clientStamps.length := by
      have hread := hw.serverRead_le
      rw [length_unread, ← hw.clientStamps] at hn
      omega
    exact ⟨hw.carry _ (.refl _) (.fires _ _ _) hle hw.clientRead_le,
      h.inTime.serverReads hw hlag rfl hle rfl rfl⟩
  | clientReads n =>
    obtain ⟨hn, hstep⟩ := Option.ite_none_right_eq_some.1 hstep
    obtain rfl := Option.some.inj hstep
    have hle : s.link.clientRead + n ≤ s.serverStamps.length := by
      have hread := hw.clientRead_le
      rw [length_unread, ← hw.serverStamps] at hn
      omega
    exact ⟨hw.carry _ (.fires _ _ _) (.refl _) hw.serverRead_le hle,
      h.inTime.clientReads hw hfires rfl hle rfl rfl⟩

/-! ## Whole runs -/

theorem PushesEarly.of_prefix {bs : List Action} (h : PushesEarly lag as) (hbs : bs <+: as) :
    PushesEarly lag bs :=
  fun pre msg s hpre => h pre msg s (hpre.trans hbs)

theorem sound_reaches (hlag : 2 * lag < seconds 5) (h : (machine lag).Reaches as s)
    (hearly : PushesEarly lag as) : Sound lag s := by
  refine Machine.history_invariant (M := machine lag)
    (I := fun as s => PushesEarly lag as → Sound lag s) ?_ ?_ h hearly
  · exact fun _ => sound_initial hlag
  · intro as s a t hs ih hstep hearly
    have hsound := ih (hearly.of_prefix (List.prefix_append as [a]))
    have hnever := hsound.keptAlive.1
    obtain ⟨-, hmove⟩ := Option.ite_none_right_eq_some.1 hstep
    cases a with
    | wait d =>
      obtain ⟨⟨hclient, -, hlate⟩, ht⟩ := Option.ite_none_right_eq_some.1 hmove
      obtain rfl := Option.some.inj ht
      exact hsound.wait hclient hlate
    | link a =>
      obtain ⟨hfires, hmap⟩ := Option.ite_none_right_eq_some.1 hmove
      obtain ⟨link, hlink, rfl⟩ := Option.map_eq_some_iff.1 hmap
      refine hsound.carry hlag hfires ?_ hlink
      rintro msg rfl
      exact hearly as msg s List.prefix_rfl hs
    | readerIdle => exact absurd (hstep.symm.trans hnever) (by simp)

/-- What can happen over a fast network can happen over a slower one. -/
theorem simulates_slower {lag' : ℕ} (h : lag ≤ lag') :
    (machine lag).Simulates (machine lag') id id where
  init := rfl
  step as s a t _ hstep := by
    obtain ⟨hactive, hmove⟩ := Option.ite_none_right_eq_some.1 hstep
    refine (if_pos hactive).trans ?_
    cases a with
    | wait d =>
      obtain ⟨⟨hclient, hserver, hlate⟩, ht⟩ := Option.ite_none_right_eq_some.1 hmove
      refine (if_pos ⟨hclient, hserver, fun t ht => ?_⟩).trans ht
      exact (hlate t ht).trans (Nat.add_le_add_left h t)
    | link a => exact hmove
    | readerIdle => exact hmove

/-- Over a network with a latency of 2.5 seconds: a ping 5 seconds after the start, its pong, which
the client reads 5 seconds later, and the next ping, which is still on its way when the server's
time is up. -/
def slowHeartbeat : List Action :=
  [.wait (seconds 5), .link .allIdle, .wait (seconds 5 / 2), .link (.serverReads 5),
    .wait (seconds 5 / 2), .link (.clientReads 5), .wait (seconds 5), .link .allIdle,
    .wait (seconds 5 / 2)]

theorem slowHeartbeat_dies :
    ∃ s t, (machine (seconds 5 / 2)).Reaches slowHeartbeat s ∧
      s.step (seconds 5 / 2) .readerIdle = some t :=
  ⟨_, _, rfl, rfl⟩

/-- **The latency that the heartbeat stands.** When pushes are early, the server times out in no run
exactly when twice the latency is less than 5 seconds. -/
theorem latency_iff (lag : ℕ) :
    (∀ as s, (machine lag).Reaches as s → PushesEarly lag as → KeptAlive lag s) ↔
      2 * lag < seconds 5 := by
  constructor
  · intro hkept
    by_contra hslow
    have hlag : seconds 5 / 2 ≤ lag := by omega
    obtain ⟨s, t, hs, hstep⟩ := slowHeartbeat_dies
    have hs := (simulates_slower hlag).reaches hs
    rw [List.map_id] at hs
    have hearly : PushesEarly lag slowHeartbeat := by
      intro pre msg s hpre
      have hmem := hpre.subset (List.mem_append_right _ List.mem_cons_self)
      simp [slowHeartbeat] at hmem
    exact absurd (hstep.symm.trans (hkept _ _ hs hearly).1) (by simp)
  · exact fun hlag as s hs hearly => (sound_reaches hlag hs hearly).keptAlive

end TimedLink

end MmtxSample
