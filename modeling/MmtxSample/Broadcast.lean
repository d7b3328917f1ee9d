import MmtxSample.Link
import MmtxSample.Registry.PushAll
import MmtxSample.Registry.RemoveAll

/-!
# A push, from the request to the clients

`TestServerController.insertRow` writes to the channels that its loop finds in the registry, and
each channel is the server's end of a connection. A `Broadcast` is the registry together with the
link behind each channel: the registry takes its steps, and a step that writes to an active channel
is a push on its link; `Channel.writeAndFlush` on any other channel does nothing. Meanwhile the
links carry their traffic. The `ledger` records the pushes carried out, with the request that made
them.

A broadcast projects onto the registry (`projects_registry`) and onto each link (`link_reaches`), so
what is known of each holds here. What is new is what ties them together: the ledger has what the
requests have logged of active channels (`Recorded`), and what the link of a channel has been pushed
is the ledger's payloads for that channel.

* `push_delivered`: what a push that has returned means to the clients.
* `push_ordered`: a push that returns before another begins comes first at every client.
* `removed_get_nothing`: a push that begins after a removal skips the channels that were there
  before it.
-/

namespace MmtxSample

open Java Netty CustomHeartbeatHandler TransitionSystem

variable {Channel : Type*}

/-- A write to an active channel. -/
structure Push (Channel : Type*) where
  request : ℕ
  channel : Channel
  msg : Bytes

structure Broadcast (Channel : Type*) where
  registry : Registry Channel
  links : Channel → Link
  ledger : List (Push Channel)

/-- What the next step of the body writes, if making the frame does not throw. -/
def Request.writing (q : Request Channel) : Option (Channel × Bytes) :=
  match q.place, q.mapping with
  | .write _ channel, .insertRow msg =>
    (TestServerController.insertRowBuf msg).toOption.map fun _ => (channel, msg)
  | _, _ => none

namespace Broadcast

inductive Label (Channel : Type*)
  | registry (l : Registry.Label Channel)
  | traffic (channel : Channel) (a : Link.Action)

/-- The step of the registry that a label stands for. -/
def Label.step? : Label Channel → Option (Registry.Label Channel)
  | registry l => some l
  | traffic _ _ => none

/-- The registry's part of a run. -/
def registryLabels (ls : List (Label Channel)) : List (Registry.Label Channel) :=
  ls.filterMap Label.step?

/-- The registry's part of the run of a removal. -/
theorem registryLabels_remove (pre mid : List (Label Channel)) (r : ℕ) :
    registryLabels (pre ++ .registry (.request r .remove) :: (mid ++ [.registry (.done r)])) =
      registryLabels pre ++ .request r .remove :: (registryLabels mid ++ [.done r]) := by
  simp [registryLabels, Label.step?]

/-- What the link of a channel may do by itself. The server reads from an active channel alone; the
client may write before the server has seen the channel, and learns later that it is closed. -/
def Carries (life : Life) : Link.Action → Prop
  | .push _ => False
  | .serverReads _ => life = .active
  | .allIdle | .sendData _ | .clientReads _ => True

instance (life : Life) : DecidablePred (Carries life) := fun a => by
  cases a <;> unfold Carries <;> infer_instance

def initial : Broadcast Channel := ⟨.initial, fun _ => .initial, []⟩

/-- The push that a step of the registry carries out. -/
def push (s : Broadcast Channel) : Registry.Label Channel → Option (Push Channel)
  | .step r => (s.registry.requests r).bind fun q => q.writing.bind fun w =>
    if s.registry.isActive w.1 then some ⟨r, w.1, w.2⟩ else none
  | _ => none

/-- The payloads pushed to a channel. -/
def payloads [DecidableEq Channel] (c : Channel) (ledger : List (Push Channel)) :
    List (List UInt8) :=
  ledger.filterMap fun x => if x.channel = c then some x.msg.data else none

/-- How often a request has pushed to a channel. -/
def count [DecidableEq Channel] (r : ℕ) (c : Channel) (ledger : List (Push Channel)) : ℕ :=
  ledger.countP fun x => x.request = r ∧ x.channel = c

/-- A step that pushes is a step of a request that stands before its write, to an active channel. -/
theorem push_eq_some {s : Broadcast Channel} {l : Registry.Label Channel} {x : Push Channel}
    (h : s.push l = some x) :
    l = .step x.request ∧ s.registry.isActive x.channel = true ∧
      ∃ q, s.registry.requests x.request = some q ∧ q.writing = some (x.channel, x.msg) := by
  cases l with
  | step r =>
    obtain ⟨q, hq, h⟩ := Option.bind_eq_some_iff.1 h
    obtain ⟨w, hw, h⟩ := Option.bind_eq_some_iff.1 h
    obtain ⟨hactive, h⟩ := Option.ite_none_right_eq_some.1 h
    obtain rfl := Option.some.inj h
    exact ⟨rfl, hactive, q, hq, hw⟩
  | _ => cases h

variable [DecidableEq Channel]

/-- Carry out a push, if there is one. -/
def carryOut (s : Broadcast Channel) : Option (Push Channel) → Broadcast Channel
  | none => s
  | some x =>
    { s with
      links := Function.update s.links x.channel ((s.links x.channel).pushes x.msg)
      ledger := s.ledger ++ [x] }

def step (ids : ChannelIds Channel) (s : Broadcast Channel) :
    Label Channel → Option (Broadcast Channel)
  | .registry l => (s.registry.step ids l).map fun registry =>
    { s.carryOut (s.push l) with registry := registry }
  | .traffic c a =>
    if Carries (s.registry.life c) a then ((s.links c).step a).map fun link =>
      { s with links := Function.update s.links c link }
    else none

/-- The server as it starts. -/
def machine (ids : ChannelIds Channel) : Machine (Broadcast Channel) (Label Channel) :=
  ⟨initial, step ids⟩

variable {ids : ChannelIds Channel} {s t : Broadcast Channel}

/-! ## One step -/

theorem step_registry {l : Registry.Label Channel}
    (h : (machine ids).step s (.registry l) = some t) :
    Registry.step ids s.registry l = some t.registry ∧
      t = { s.carryOut (s.push l) with registry := t.registry } := by
  obtain ⟨registry, hregistry, rfl⟩ := Option.map_eq_some_iff.1 h
  exact ⟨hregistry, rfl⟩

theorem step_traffic {c : Channel} {a : Link.Action}
    (h : (machine ids).step s (.traffic c a) = some t) :
    ∃ link, (s.links c).step a = some link ∧ Carries (s.registry.life c) a ∧
      t = { s with links := Function.update s.links c link } := by
  obtain ⟨hcarries, h⟩ := Option.ite_none_right_eq_some.1 h
  obtain ⟨link, hlink, rfl⟩ := Option.map_eq_some_iff.1 h
  exact ⟨link, hlink, hcarries, rfl⟩

theorem step_of_link {c : Channel} {a : Link.Action} {link : Link}
    (hcarries : Carries (s.registry.life c) a) (hlink : (s.links c).step a = some link) :
    (machine ids).step s (.traffic c a) =
      some { s with links := Function.update s.links c link } := by
  simp only [machine, step, if_pos hcarries, hlink, Option.map_some]

theorem ledger_carryOut (s : Broadcast Channel) (x : Option (Push Channel)) :
    (s.carryOut x).ledger = s.ledger ++ x.toList := by
  cases x with
  | none => exact (List.append_nil _).symm
  | some x => rfl

/-- The ledger only grows, and a step of the registry adds the push it carries out. -/
theorem ledger_step {l : Label Channel} (h : (machine ids).step s l = some t) :
    t.ledger = s.ledger ++ (l.step?.bind s.push).toList := by
  cases l with
  | registry l =>
    obtain ⟨-, ht⟩ := step_registry h
    rw [ht]
    exact ledger_carryOut s (s.push l)
  | traffic c a =>
    obtain ⟨link, -, -, rfl⟩ := step_traffic h
    exact (List.append_nil _).symm

/-- The registry sees its own steps alone. -/
theorem projects_registry (ids : ChannelIds Channel) :
    Machine.Projects (machine ids) (Registry.machine ids) registry Label.step? where
  init := rfl
  step ls s l t _ h := by
    cases l with
    | registry l => exact (step_registry h).1
    | traffic c a =>
      obtain ⟨link, -, -, rfl⟩ := step_traffic h
      rfl

/-- What a link may do by itself is no push. -/
theorem pushed_of_carries {life : Life} {a : Link.Action} {link link' : Link}
    (hcarries : Carries life a) (h : link.step a = some link') : link'.pushed = link.pushed := by
  cases a with
  | push msg => exact hcarries.elim
  | allIdle | sendData content => exact Option.some.inj h ▸ rfl
  | serverReads n | clientReads n =>
    obtain ⟨-, h⟩ := Option.ite_none_right_eq_some.1 h
    exact Option.some.inj h ▸ rfl

/-- The link of a channel is a link that has been pushed the ledger's payloads for the channel. -/
theorem link_reaches {ls : List (Label Channel)} (h : (machine ids).Reaches ls s) (c : Channel) :
    (∃ as, Link.machine.Reaches as (s.links c)) ∧ (s.links c).pushed = payloads c s.ledger := by
  refine Machine.invariant (M := machine ids) (I := fun s =>
    (∃ as, Link.machine.Reaches as (s.links c)) ∧ (s.links c).pushed = payloads c s.ledger) ?_ ?_ h
  · exact ⟨⟨[], rfl⟩, rfl⟩
  · rintro s l t ⟨⟨as, has⟩, hpushed⟩ hstep
    cases l with
    | registry l =>
      obtain ⟨-, ht⟩ := step_registry hstep
      rw [ht]
      cases hpush : s.push l with
      | none => exact ⟨⟨as, has⟩, hpushed⟩
      | some x =>
        by_cases hc : x.channel = c
        · subst hc
          simp only [carryOut, Function.update_self, payloads, List.filterMap_append]
          refine ⟨⟨as ++ [.push x.msg], Machine.reaches_snoc.2 ⟨_, has, rfl⟩⟩, ?_⟩
          simp [Link.pushes, hpushed, payloads]
        · simp only [carryOut, Function.update_of_ne (Ne.symm hc), payloads,
            List.filterMap_append]
          exact ⟨⟨as, has⟩, by simpa [hc, payloads] using hpushed⟩
    | traffic c' a =>
      obtain ⟨link, hlink, hcarries, rfl⟩ := step_traffic hstep
      by_cases hc : c' = c
      · subst hc
        simp only [Function.update_self]
        exact ⟨⟨as ++ [a], Machine.reaches_snoc.2 ⟨_, has, hlink⟩⟩,
          (pushed_of_carries hcarries hlink).trans hpushed⟩
      · simp only [Function.update_of_ne (Ne.symm hc)]
        exact ⟨⟨as, has⟩, hpushed⟩

/-! ## The ledger and the logs of the requests -/

end Broadcast

/-- The channel in hand. -/
def Place.channel : Place Channel → Option Channel
  | isActive _ channel | notNull _ channel => channel
  | write _ channel | close _ channel | remove _ channel => some channel
  | _ => none

theorem Request.channel_write (q : Request Channel) (c : Channel) (buf : Except Exception ByteBuf) :
    (q.write c buf).place.channel = none := by
  cases buf <;> rfl

theorem Request.writing_eq_some {q : Request Channel} {c : Channel} {msg : Bytes}
    (h : q.writing = some (c, msg)) : q.place.channel = some c ∧ q.mapping = .insertRow msg := by
  unfold Request.writing at h
  split at h
  · rename_i key c' msg' hplace hmapping
    obtain ⟨buf, -, heq⟩ := Option.map_eq_some_iff.1 h
    obtain ⟨rfl, rfl⟩ := Prod.mk.inj heq
    exact ⟨by rw [hplace]; rfl, hmapping⟩
  · cases h

namespace Registry

variable [DecidableEq Channel] {ids : ChannelIds Channel} {s t : Registry Channel}

/-- A channel comes into hand from the map. -/
theorem held_of_step {l : Label Channel} {r : ℕ} {q' : Request Channel} {c : Channel}
    (hstep : step ids s l = some t) (hq' : t.requests r = some q')
    (hheld : q'.place.channel = some c) :
    (∃ q, s.requests r = some q ∧ q.place.channel = some c) ∨
      ∃ key, s.channels.lookup key = some c := by
  rcases requests_of_step hstep hq' with ⟨mapping, -, rfl⟩ | ⟨q, q₁, hq, hafter, rfl⟩
  · cases hheld
  rw [Request.place_observe] at hheld
  rcases Request.after_cases hafter with ⟨-, rfl⟩ | ⟨key, -, hnext⟩ | ⟨-, hdone⟩ | ⟨-, hbody⟩
  · exact Or.inl ⟨q₁, hq, hheld⟩
  · obtain ⟨-, it, -, rfl⟩ := Request.next_eq_some hnext
    cases hheld
  · obtain ⟨-, -, rfl⟩ := Request.done_eq_some hdone
    cases hheld
  · cases Request.body_of_step hbody with
    | @get key hplace => exact Or.inr ⟨key, hheld⟩
    | active hplace | activeRemove hplace | notNull hplace | close hplace =>
      exact Or.inl ⟨q, hq, by rw [hplace]; exact hheld⟩
    | write hplace =>
      rw [Request.channel_write] at hheld
      cases hheld
    | nullPointer | inactive | null | remove => cases hheld

/-- A channel in hand has been active. -/
theorem life_of_held {ls : List (Label Channel)} (h : (machine ids).Reaches ls s) :
    ∀ r q c, s.requests r = some q → q.place.channel = some c → s.life c ≠ .fresh := by
  refine Machine.history_invariant (M := machine ids) (I := fun _ s =>
    ∀ r q c, s.requests r = some q → q.place.channel = some c → s.life c ≠ .fresh) ?_ ?_ h
  · intro r q c hq
    cases hq
  · intro ls s l t hs ih hstep r q' c hq' hheld
    refine life_ne_fresh_step ?_ hstep
    rcases held_of_step hstep hq' hheld with ⟨q, hq, hheld⟩ | ⟨key, hlookup⟩
    · exact ih r q c hq hheld
    · rcases ((inv_reaches hs).entries key c hlookup).2 with hlife | hlife <;> simp [hlife]

/-- A request that is made after a removal has no channel in hand that was there when the removal
began and is still active. -/
theorem not_active_of_held {pre mid post : List (Label Channel)} {r : ℕ} {u : Registry Channel}
    (hu : (machine ids).Reaches (pre ++ .request r .remove :: (mid ++ [.done r])) u)
    (h : (machine ids).exec u post = some s) {r' : ℕ} {q : Request Channel} {c : Channel}
    (hnew : u.requests r' = none) (hq : s.requests r' = some q)
    (hheld : q.place.channel = some c) (hc : .channelActive c ∈ pre) : s.isActive c = false := by
  have hinv := Machine.exec_history_invariant (M := machine ids) (I := fun post s =>
    (machine ids).Reaches (pre ++ .request r .remove :: (mid ++ .done r :: post)) s ∧
      ∀ q, s.requests r' = some q → q.place.channel = some c → s.isActive c = false) ?_ ?_ h
  · exact hinv.2 q hq hheld
  · refine ⟨hu, fun q hq => ?_⟩
    cases hnew.symm.trans hq
  · rintro post s l t ⟨hs, ih⟩ hstep
    have ht : (machine ids).Reaches
        (pre ++ .request r .remove :: (mid ++ .done r :: (post ++ [l]))) t := by
      have hsnoc := Machine.reaches_snoc.2 ⟨s, hs, hstep⟩
      simpa using hsnoc
    refine ⟨ht, fun q hq hheld => ?_⟩
    have hfresh : s.life c ≠ .fresh := life_ne_fresh_of_mem (List.prefix_append _ _) hs hc
    have hbefore : s.isActive c = false := by
      rcases held_of_step hstep hq hheld with ⟨q, hq, hheld⟩ | ⟨key, hlookup⟩
      · exact ih q hq hheld
      · exact not_active_of_lookup hs hlookup hc
    rw [← Bool.not_eq_true] at hbefore ⊢
    exact fun hactive => hbefore (isActive_of_step hfresh hstep hactive)

end Registry

namespace Broadcast

variable [DecidableEq Channel] {ids : ChannelIds Channel} {s t : Broadcast Channel}

/-- A step of the body writes what it is about to write. -/
theorem writes_of_step {channels : ConcurrentMap.Contents String Channel}
    {isActive : Channel → Bool} {q q' : Request Channel} (h : q.step channels isActive = some q')
    (c : Channel) :
    (q'.writes c).length = (q.writes c).length +
      if q.writing.map Prod.fst = some c then 1 else 0 := by
  have hsame : q.writing = none → q'.writes c = q.writes c →
      (q'.writes c).length = (q.writes c).length +
        if q.writing.map Prod.fst = some c then 1 else 0 := by
    intro hnone hwrites
    rw [hnone, hwrites]
    rfl
  cases Request.body_of_step h with
  | @write key c' msg hplace hmapping =>
    have hwriting : q.writing =
        (TestServerController.insertRowBuf msg).toOption.map fun _ => (c', msg) := by
      rw [Request.writing, hplace, hmapping]
    rw [hwriting]
    generalize TestServerController.insertRowBuf msg = buf
    cases buf with
    | ok buf =>
      rw [Request.write, Request.writes_wrote, List.length_append]
      by_cases hc : c' = c <;> simp [hc, Except.toOption]
    | error ex => rfl
  | get hplace | nullPointer hplace | null hplace =>
    exact hsame (by rw [Request.writing, hplace]) rfl
  | active hplace | activeRemove hplace | notNull hplace =>
    exact hsame (by rw [Request.writing, hplace]) (Request.writes_checked ..)
  | inactive hplace =>
    refine hsame ?_ (Request.writes_checked ..)
    rcases hplace with hplace | hplace <;> rw [Request.writing, hplace]
  | close hplace | remove hplace =>
    exact hsame (by rw [Request.writing, hplace]) (by simp [Request.writes, Request.record])

/-- What the ledger says of the requests: the pushes of a request on a channel are no more than it
has logged, and as many as it has logged while the channel has not become inactive. -/
structure Recorded (s : Broadcast Channel) : Prop where
  le : ∀ r q c, s.registry.requests r = some q → count r c s.ledger ≤ (q.writes c).length
  eq : ∀ r q c, s.registry.requests r = some q →
    s.registry.life c = .fresh ∨ s.registry.life c = .active →
    count r c s.ledger = (q.writes c).length
  source : ∀ x ∈ s.ledger, ∃ q, s.registry.requests x.request = some q ∧
    q.mapping = .insertRow x.msg

theorem recorded_initial : Recorded (initial : Broadcast Channel) where
  le r q c hq := by cases hq
  eq r q c hq := by cases hq
  source x hx := by cases hx

theorem count_append (r : ℕ) (c : Channel) (ledger : List (Push Channel))
    (x : Option (Push Channel)) :
    count r c (ledger ++ x.toList) = count r c ledger +
      if x.map (fun x => (x.request, x.channel)) = some (r, c) then 1 else 0 := by
  cases x with
  | none => simp [count]
  | some x => simp [count, List.countP_cons]

/-- A channel that has not become inactive had not before. -/
theorem early_of_step {u v : Registry Channel} {l : Registry.Label Channel} {c : Channel}
    (hstep : Registry.step ids u l = some v) (h : v.life c = .fresh ∨ v.life c = .active) :
    u.life c = .fresh ∨ u.life c = .active := by
  have hlife := Registry.life_step hstep
  cases l with
  | channelActive c' | becomesInactive c' | channelInactive c' =>
    obtain ⟨hbefore, hlife⟩ := hlife
    by_cases hc : c = c'
    · subst hc
      simp [hlife, hbefore] at h ⊢
    · rwa [hlife, Function.update_of_ne hc] at h
  | request r mapping | next r key | done r | step r =>
    rwa [show v.life = u.life from hlife] at h

/-- What a step of the registry adds to the log of a request and to the ledger: a write to an active
channel is a push. -/
theorem added_of_after {l : Registry.Label Channel} {r : ℕ} {q q' : Request Channel}
    (hq : s.registry.requests r = some q) (hafter : q.after s.registry r l = some q')
    (c : Channel) :
    ∃ written pushed : ℕ, (q'.writes c).length = (q.writes c).length + written ∧
      count r c (s.ledger ++ (s.push l).toList) = count r c s.ledger + pushed ∧
      pushed ≤ written ∧
      (written ≠ pushed → q.place.channel = some c ∧ s.registry.life c ≠ .active) := by
  have hnone : ∀ {q' : Request Channel}, q'.log = q.log →
      (∀ x, s.push l = some x → x.request ≠ r) → ∃ written pushed : ℕ,
        (q'.writes c).length = (q.writes c).length + written ∧
        count r c (s.ledger ++ (s.push l).toList) = count r c s.ledger + pushed ∧
        pushed ≤ written ∧
        (written ≠ pushed → q.place.channel = some c ∧ s.registry.life c ≠ .active) := by
    intro q' hlog hother
    refine ⟨0, 0, by simp [Request.writes, hlog], ?_, Nat.le_refl _, fun h => absurd rfl h⟩
    rw [count_append, if_neg]
    intro heq
    obtain ⟨x, hx, heq⟩ := Option.map_eq_some_iff.1 heq
    exact hother x hx (Prod.mk.inj heq).1
  rcases Request.after_cases hafter with ⟨hactor, rfl⟩ | ⟨key, rfl, hnext⟩ | ⟨rfl, hdone⟩ |
    ⟨rfl, hbody⟩
  · refine hnone rfl ?_
    rintro x hx rfl
    rw [(push_eq_some hx).1] at hactor
    exact hactor rfl
  · obtain ⟨-, it, -, rfl⟩ := Request.next_eq_some hnext
    exact hnone rfl fun x hx => by cases hx
  · obtain ⟨-, -, rfl⟩ := Request.done_eq_some hdone
    exact hnone rfl fun x hx => by cases hx
  · refine ⟨_, _, writes_of_step hbody c, count_append r c s.ledger _, ?_⟩
    cases hwriting : q.writing with
    | none => simp [push, hq, hwriting]
    | some w =>
      obtain ⟨c', msg⟩ := w
      have hheld := (Request.writing_eq_some hwriting).1
      by_cases hc : c' = c
      · subst hc
        by_cases hactive : s.registry.isActive c' = true
        · simp [push, hq, hwriting, hactive]
        · have hlife : s.registry.life c' ≠ .active := fun h => hactive (decide_eq_true h)
          simp [push, hq, hwriting, hactive, hheld, hlife]
      · by_cases hactive : s.registry.isActive c' = true <;>
          simp [push, hq, hwriting, hactive, hc]

/-- A request that begins has pushed nothing. -/
theorem Recorded.count_of_request (h : Recorded s) {r : ℕ} {mapping : Mapping}
    (hstep : (machine ids).step s (.registry (.request r mapping)) = some t) (c : Channel) :
    count r c t.ledger = 0 := by
  obtain ⟨hregistry, -⟩ := Broadcast.step_registry hstep
  obtain ⟨u, hact, -⟩ := Registry.step_eq_some hregistry
  obtain ⟨hnone, -⟩ := Option.ite_none_right_eq_some.1 hact
  have hledger : t.ledger = s.ledger := (ledger_step hstep).trans (List.append_nil _)
  rw [hledger]
  refine List.countP_eq_zero.2 ?_
  intro x hx
  obtain ⟨q, hq, -⟩ := h.source x hx
  have hne : x.request ≠ r := by
    rintro rfl
    cases hq.symm.trans hnone
  simp [hne]

theorem Recorded.step_registry {l : Registry.Label Channel} (h : Recorded s)
    (hheld : ∀ r q c, s.registry.requests r = some q → q.place.channel = some c →
      s.registry.life c ≠ .fresh)
    (hstep : (machine ids).step s (.registry l) = some t) : Recorded t := by
  obtain ⟨hregistry, -⟩ := Broadcast.step_registry hstep
  have hledger : t.ledger = s.ledger ++ (s.push l).toList := ledger_step hstep
  refine ⟨?_, ?_, ?_⟩
  · intro r q' c hq'
    rcases Registry.requests_of_step hregistry hq' with ⟨mapping, rfl, rfl⟩ |
      ⟨q, q₁, hq, hafter, rfl⟩
    · rw [h.count_of_request hstep c]
      exact Nat.zero_le _
    · obtain ⟨written, pushed, hwrites, hcount, hle, -⟩ := added_of_after hq hafter c
      have hold := h.le r q c hq
      rw [hledger, hcount, Request.writes_observe, hwrites]
      omega
  · intro r q' c hq' hlife
    have hearly := early_of_step hregistry hlife
    rcases Registry.requests_of_step hregistry hq' with ⟨mapping, rfl, rfl⟩ |
      ⟨q, q₁, hq, hafter, rfl⟩
    · rw [h.count_of_request hstep c]
      rfl
    · obtain ⟨written, pushed, hwrites, hcount, -, hsame⟩ := added_of_after hq hafter c
      have heq : written = pushed := by
        by_contra hne
        obtain ⟨hplace, hactive⟩ := hsame hne
        exact hearly.elim (hheld r q c hq hplace) hactive
      rw [hledger, hcount, Request.writes_observe, hwrites, heq, h.eq r q c hq hearly]
  · intro x hx
    rw [hledger] at hx
    have hsource : ∃ q, s.registry.requests x.request = some q ∧ q.mapping = .insertRow x.msg := by
      rcases List.mem_append.1 hx with hx | hx
      · exact h.source x hx
      · obtain ⟨-, -, q, hq, hwriting⟩ := push_eq_some (Option.mem_toList.1 hx)
        exact ⟨q, hq, (Request.writing_eq_some hwriting).2⟩
    obtain ⟨q, hq, hmapping⟩ := hsource
    obtain ⟨q', hafter, hq'⟩ := Registry.requests_step hregistry hq
    refine ⟨_, hq', ?_⟩
    rw [Request.mapping_observe, (Request.after_keeps hafter).1, hmapping]

theorem registry_reaches {ls : List (Label Channel)} (h : (machine ids).Reaches ls s) :
    (Registry.machine ids).Reaches (registryLabels ls) s.registry :=
  (projects_registry ids).reaches h

theorem recorded_reaches {ls : List (Label Channel)} (h : (machine ids).Reaches ls s) :
    Recorded s := by
  refine Machine.history_invariant (M := machine ids) (I := fun _ s => Recorded s)
    recorded_initial ?_ h
  intro ls s l t hs ih hstep
  cases l with
  | registry l => exact ih.step_registry (Registry.life_of_held (registry_reaches hs)) hstep
  | traffic c a =>
    obtain ⟨link, -, -, rfl⟩ := step_traffic hstep
    exact ⟨ih.le, ih.eq, ih.source⟩

/-- A channel that has been pushed to has been active. -/
theorem life_of_ledger {ls : List (Label Channel)} (h : (machine ids).Reaches ls s) :
    ∀ x ∈ s.ledger, s.registry.life x.channel ≠ .fresh := by
  refine Machine.invariant (M := machine ids)
    (I := fun s => ∀ x ∈ s.ledger, s.registry.life x.channel ≠ .fresh) ?_ ?_ h
  · intro x hx
    cases hx
  · intro s l t ih hstep x hx
    rw [ledger_step hstep] at hx
    cases l with
    | registry l =>
      refine Registry.life_ne_fresh_step ?_ (step_registry hstep).1
      rcases List.mem_append.1 hx with hx | hx
      · exact ih x hx
      · have hactive := (push_eq_some (Option.mem_toList.1 hx)).2.1
        have hlife : s.registry.life x.channel = .active := of_decide_eq_true hactive
        simp [hlife]
    | traffic c a =>
      obtain ⟨link, -, -, rfl⟩ := step_traffic hstep
      exact ih x (by simpa [Label.step?] using hx)

/-! ## From the request to the clients -/

/-- A request that has returned stays so, and pushes no more. -/
theorem returned_step {l : Label Channel} {r : ℕ}
    (hreturned : ∃ q, s.registry.requests r = some q ∧ q.place = .returned)
    (hstep : (machine ids).step s l = some t) :
    (∃ q, t.registry.requests r = some q ∧ q.place = .returned) ∧
      ∀ x ∈ (l.step?.bind s.push).toList, x.request ≠ r := by
  obtain ⟨q, hq, hplace⟩ := hreturned
  cases l with
  | traffic c a =>
    obtain ⟨link, -, -, rfl⟩ := step_traffic hstep
    exact ⟨⟨q, hq, hplace⟩, fun x hx => by cases hx⟩
  | registry l =>
    obtain ⟨hregistry, -⟩ := step_registry hstep
    obtain ⟨q', hafter, hq'⟩ := Registry.requests_step hregistry hq
    refine ⟨⟨_, hq', ?_⟩, ?_⟩
    · rw [Request.place_observe]
      rcases Request.after_cases hafter with ⟨-, rfl⟩ | ⟨key, -, hnext⟩ | ⟨-, hdone⟩ | ⟨-, hbody⟩
      · exact hplace
      · cases hplace.symm.trans (Request.next_eq_some hnext).1
      · cases hplace.symm.trans (Request.done_eq_some hdone).1
      · simp [Request.step, hplace] at hbody
    · rintro x hx rfl
      obtain ⟨-, -, q₁, hq₁, hwriting⟩ := push_eq_some (Option.mem_toList.1 hx)
      obtain rfl := Option.some.inj (hq.symm.trans hq₁)
      have hheld := (Request.writing_eq_some hwriting).1
      rw [hplace] at hheld
      cases hheld

/-- **Pushes arrive in the order in which they return.** When one push has returned before another
is asked for, the ledger has all of the first before any of the second; and each client has handled
the short messages pushed to it from the front of the ledger on, in order, merged with its
echoes. -/
theorem push_ordered {p q : List (Label Channel)} {u : Broadcast Channel} {r₁ r₂ : ℕ}
    (hu : (machine ids).Reaches p u)
    (hfirst : ∃ q, u.registry.requests r₁ = some q ∧ q.place = .returned)
    (hsecond : u.registry.requests r₂ = none) (h : (machine ids).Reaches (p ++ q) s) :
    ∃ later, s.ledger = u.ledger ++ later ∧ (∀ x ∈ u.ledger, x.request ≠ r₂) ∧
      (∀ x ∈ later, x.request ≠ r₁) ∧
      ∀ c, ∃ i j, Interleaving (((payloads c s.ledger).filter Link.Short).take i)
        ((Exchange.received (s.links c).server.context).take j)
        (Exchange.received (s.links c).client.context) := by
  have hlater := Machine.Reaches.keeps (I := fun s =>
    (∃ q, s.registry.requests r₁ = some q ∧ q.place = .returned) ∧
      ∃ later, s.ledger = u.ledger ++ later ∧ ∀ x ∈ later, x.request ≠ r₁) ?_
    (List.prefix_append p q) hu h ⟨hfirst, [], by simp, by simp⟩
  · obtain ⟨-, later, hledger, hlater⟩ := hlater
    refine ⟨later, hledger, ?_, hlater, ?_⟩
    · rintro x hx rfl
      obtain ⟨q, hq, -⟩ := (recorded_reaches hu).source x hx
      cases hq.symm.trans hsecond
    · intro c
      obtain ⟨⟨as, has⟩, hpushed⟩ := link_reaches h c
      rw [← hpushed]
      exact (Link.customs_toClient has).take_of_append
  · rintro s l t ⟨hreturned, later, hledger, hlater⟩ hstep
    obtain ⟨hreturned', hnew⟩ := returned_step hreturned hstep
    refine ⟨hreturned', later ++ (l.step?.bind s.push).toList, ?_, ?_⟩
    · rw [ledger_step hstep, hledger, List.append_assoc]
    · intro x hx
      exact (List.mem_append.1 hx).elim (hlater x) (hnew x)

/-- A push to one channel, and one that begins after it has returned. -/
theorem push_ordered_run :
    let ids : ChannelIds String := ⟨id, Function.injective_id⟩
    let p : List (Label String) := [.registry (.channelActive "a"),
      .registry (.request 0 (.insertRow ⟨[97], by decide⟩)), .registry (.next 0 "a"),
      .registry (.step 0), .registry (.step 0), .registry (.step 0), .registry (.step 0),
      .registry (.done 0)]
    let q : List (Label String) := [.registry (.request 1 (.insertRow ⟨[98], by decide⟩)),
      .registry (.next 1 "a"), .traffic "a" .allIdle]
    ∃ u s, (machine ids).Reaches p u ∧ (machine ids).Reaches (p ++ q) s ∧
      ∃ later, s.ledger = u.ledger ++ later ∧ ∀ x ∈ later, x.request ≠ 0 := by
  intro ids p q
  have hrun : ∃ u, (machine ids).Reaches p u ∧
      (∃ q, u.registry.requests 0 = some q ∧ q.place = .returned) ∧
      u.registry.requests 1 = none := ⟨_, rfl, ⟨_, rfl, rfl⟩, rfl⟩
  have hlater : ∃ s, (machine ids).Reaches (p ++ q) s := ⟨_, rfl⟩
  obtain ⟨u, hu, hfirst, hsecond⟩ := hrun
  obtain ⟨s, hs⟩ := hlater
  obtain ⟨later, hledger, -, hnew, -⟩ := push_ordered hu hfirst hsecond hs
  exact ⟨u, s, hu, hs, later, hledger, hnew⟩

/-! ## A push after a removal -/

/-- A push on a channel that was there when a removal began was asked for before it returned. -/
theorem not_mem_of_push {pre mid post : List (Label Channel)} {r : ℕ} {u : Broadcast Channel}
    {l : Registry.Label Channel} {x : Push Channel}
    (hu : (machine ids).Reaches (pre ++ .registry (.request r .remove) ::
      (mid ++ [.registry (.done r)])) u)
    (h : (machine ids).Reaches ((pre ++ .registry (.request r .remove) ::
      (mid ++ [.registry (.done r)])) ++ post) s)
    (hpush : s.push l = some x) (hnew : u.registry.requests x.request = none) :
    .channelActive x.channel ∉ registryLabels pre := by
  intro hc
  obtain ⟨-, hactive, q, hq, hwriting⟩ := push_eq_some hpush
  have hregistry := registry_reaches h
  have hremoval := registry_reaches hu
  rw [registryLabels, List.filterMap_append, ← registryLabels, ← registryLabels,
    Machine.reaches_append] at hregistry
  obtain ⟨v, hv, hexec⟩ := hregistry
  obtain rfl := hv.unique hremoval
  rw [registryLabels_remove] at hremoval
  have hinactive := Registry.not_active_of_held hremoval hexec hnew hq
    (Request.writing_eq_some hwriting).1 hc
  rw [hactive] at hinactive
  cases hinactive

/-- **A removed client gets no later push.** A push that begins when a removal has returned is not
carried out on any channel that had fired `channelActive` when the removal began, although the
channels may be open still, since `close` only asks for it. -/
theorem removed_get_nothing {pre mid post : List (Label Channel)} {r : ℕ} {u : Broadcast Channel}
    (hu : (machine ids).Reaches (pre ++ .registry (.request r .remove) ::
      (mid ++ [.registry (.done r)])) u)
    (h : (machine ids).Reaches ((pre ++ .registry (.request r .remove) ::
      (mid ++ [.registry (.done r)])) ++ post) s) :
    ∀ x ∈ s.ledger, u.registry.requests x.request = none →
      .channelActive x.channel ∉ registryLabels pre := by
  obtain ⟨v, hv, hexec⟩ := Machine.reaches_append.1 h
  obtain rfl := hv.unique hu
  have hinv := Machine.exec_history_invariant (M := machine ids) (I := fun post s =>
    (machine ids).Reaches ((pre ++ .registry (.request r .remove) ::
      (mid ++ [.registry (.done r)])) ++ post) s ∧
      ∀ x ∈ s.ledger, v.registry.requests x.request = none →
        .channelActive x.channel ∉ registryLabels pre) ?_ ?_ hexec
  · exact hinv.2
  · refine ⟨by simpa using hu, fun x hx hnew => ?_⟩
    obtain ⟨q, hq, -⟩ := (recorded_reaches hu).source x hx
    cases hnew.symm.trans hq
  · rintro post s l t ⟨hs, ih⟩ hstep
    refine ⟨?_, fun x hx hnew => ?_⟩
    · rw [← List.append_assoc]
      exact Machine.reaches_snoc.2 ⟨s, hs, hstep⟩
    · rw [ledger_step hstep] at hx
      rcases List.mem_append.1 hx with hx | hx
      · exact ih x hx hnew
      · obtain ⟨l', -, hpush⟩ := Option.bind_eq_some_iff.1 (Option.mem_toList.1 hx)
        exact not_mem_of_push hu hs hpush hnew

/-- A removal of one channel, and a push that finds another. The first is still open. -/
theorem removed_get_nothing_run :
    let ids : ChannelIds String := ⟨id, Function.injective_id⟩
    let pre : List (Label String) := [.registry (.channelActive "a")]
    let mid : List (Label String) := [.registry (.next 0 "a"), .registry (.step 0),
      .registry (.step 0), .registry (.step 0), .registry (.step 0)]
    let post : List (Label String) := [.registry (.channelActive "b"),
      .registry (.request 1 (.insertRow ⟨[97], by decide⟩)), .registry (.next 1 "b"),
      .registry (.step 1), .registry (.step 1), .registry (.step 1), .registry (.step 1)]
    ∃ u s, (machine ids).Reaches (pre ++ .registry (.request 0 .remove) ::
        (mid ++ [.registry (.done 0)])) u ∧
      (machine ids).Reaches ((pre ++ .registry (.request 0 .remove) ::
        (mid ++ [.registry (.done 0)])) ++ post) s ∧ s.registry.isActive "a" = true ∧
      ∀ x ∈ s.ledger, u.registry.requests x.request = none →
        .channelActive x.channel ∉ registryLabels pre := by
  intro ids pre mid post
  have hremoval : ∃ u, (machine ids).Reaches (pre ++ .registry (.request 0 .remove) ::
      (mid ++ [.registry (.done 0)])) u := ⟨_, rfl⟩
  have hrun : ∃ s, (machine ids).Reaches ((pre ++ .registry (.request 0 .remove) ::
      (mid ++ [.registry (.done 0)])) ++ post) s ∧ s.registry.isActive "a" = true := ⟨_, rfl, rfl⟩
  obtain ⟨u, hu⟩ := hremoval
  obtain ⟨s, hs, hactive⟩ := hrun
  exact ⟨u, s, hu, hs, hactive, removed_get_nothing hu hs⟩

end Broadcast

end MmtxSample
