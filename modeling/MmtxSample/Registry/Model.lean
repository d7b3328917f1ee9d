import MmtxSample.Frames
import MmtxSample.Lib.ConcurrentMap
import MmtxSample.Lib.Machine

/-!
# The channel registry

`ChannelMap` holds the channels of the server under their ids. The event loops write to it when a
channel becomes active or inactive, and the two mappings of `TestServerController` run over its key
set: `insertRow` pushes a message to every channel, and `remove` closes and removes every channel.
Any number of requests run at once, one atomic step of any of them at a time, between any two events
of the channels.

The steps of a request follow the body of its loop. In both loops `channel.isActive()` is called on
the result of `cs.get(key)` at once; `insertRow` then asks whether the channel is null, and whether
it is active, a second time. `close` is asynchronous: it only asks the event loop to close the
channel, which some time later is no longer active, and after that fires `channelInactive`.

A request keeps a log of what it has done to channels.
-/

namespace MmtxSample

open Java Netty CustomHeartbeatHandler TransitionSystem ConcurrentMap

/-- The channels of the server and their ids. No two channels have one id. -/
structure ChannelIds (Channel : Type*) where
  asLongText : Channel → String
  unique : Function.Injective asLongText

/-- The life of a channel: `fresh` until it fires `channelActive`, `gone` once it has fired
`channelInactive`. A fresh channel may be open and `isActive()` of it true, but no loop sees it
before its `channelActive` puts it into the map. -/
inductive Life
  | fresh
  | active
  | inactive
  | gone
  deriving DecidableEq, Repr

/-- The mappings of `TestServerController` that run over the channels. -/
inductive Mapping
  | insertRow (msg : Bytes)
  | remove
  deriving DecidableEq

/-- What a request has done. -/
inductive Done (Channel : Type*)
  | checked (channel : Channel) (isActive : Bool)
  | wrote (channel : Channel) (bytes : List UInt8)
  | closed (channel : Channel)
  | removed (key : String)
  deriving DecidableEq

/-- Where a request stands in its loop, with its local variables `key` and `channel`. -/
inductive Place (Channel : Type*)
  /-- before the next key -/
  | head
  /-- before `cs.get(key)` -/
  | get (key : String)
  /-- before `channel.isActive()` -/
  | isActive (key : String) (channel : Option Channel)
  /-- before `channel != null && channel.isActive()` -/
  | notNull (key : String) (channel : Option Channel)
  /-- before the frame is made and written -/
  | write (key : String) (channel : Channel)
  /-- before `channel.close()` -/
  | close (key : String) (channel : Channel)
  /-- before `cs.remove(key)` -/
  | remove (key : String) (channel : Channel)
  /-- after `return true` -/
  | returned
  /-- after an exception -/
  | aborted (exception : Exception)
  deriving DecidableEq

structure Request (Channel : Type*) where
  mapping : Mapping
  iter : WeakIterator String
  place : Place Channel
  log : List (Done Channel)

structure Registry (Channel : Type*) where
  channels : Contents String Channel
  life : Channel → Life
  requests : ℕ → Option (Request Channel)

variable {Channel : Type*}

namespace Request

/-- A request that has just made its iterator. -/
def start (channels : Contents String Channel) (mapping : Mapping) : Request Channel :=
  ⟨mapping, .start channels, .head, []⟩

def moveTo (q : Request Channel) (place : Place Channel) : Request Channel :=
  { q with place := place }

/-- Move on after something has been done. -/
def record (q : Request Channel) (done : Done Channel) (place : Place Channel) : Request Channel :=
  { q with place := place, log := q.log ++ [done] }

/-- Write a frame, unless making it threw. -/
def write (q : Request Channel) (channel : Channel) : Except Exception ByteBuf → Request Channel
  | .ok buf => q.record (.wrote channel buf.readable) .head
  | .error ex => q.moveTo (.aborted ex)

/-- The iterator returns a key. -/
def next (q : Request Channel) (key : String) : Option (Request Channel) :=
  match q.place with
  | .head => (q.iter.next key).map fun it => { q with iter := it, place := .get key }
  | _ => none

/-- The iterator is done, and so is the loop. -/
def done (q : Request Channel) : Option (Request Channel) :=
  match q.place with
  | .head => if q.iter.CanFinish then some (q.moveTo .returned) else none
  | _ => none

/-- One step of the loop's body. -/
def step (channels : Contents String Channel) (isActive : Channel → Bool) (q : Request Channel) :
    Option (Request Channel) :=
  match q.place with
  | .get key => some (q.moveTo (.isActive key (channels.lookup key)))
  | .isActive _ none => some (q.moveTo (.aborted .nullPointer))
  | .isActive key (some channel) =>
    if isActive channel then
      match q.mapping with
      | .insertRow _ => some (q.record (.checked channel true) (.notNull key (some channel)))
      | .remove => some (q.record (.checked channel true) (.close key channel))
    else some (q.record (.checked channel false) .head)
  | .notNull _ none => some (q.moveTo .head)
  | .notNull key (some channel) =>
    if isActive channel then some (q.record (.checked channel true) (.write key channel))
    else some (q.record (.checked channel false) .head)
  | .write _ channel =>
    match q.mapping with
    | .insertRow msg => some (q.write channel (TestServerController.insertRowBuf msg))
    | .remove => none
  | .close key channel => some (q.record (.closed channel) (.remove key channel))
  | .remove key _ => some (q.record (.removed key) .head)
  | .head | .returned | .aborted _ => none

/-- The iterator notices a change of the map. -/
def observe (q : Request Channel) : Option (MapOp String Channel) → Request Channel
  | none => q
  | some op => { q with iter := q.iter.observe op }

/-- What the next step of the body does to the map. -/
def mapOp (q : Request Channel) : Option (MapOp String Channel) :=
  match q.place with
  | .remove key _ => some (.remove key)
  | _ => none

end Request

namespace Registry

inductive Label (Channel : Type*)
  | channelActive (channel : Channel)
  | becomesInactive (channel : Channel)
  | channelInactive (channel : Channel)
  | request (r : ℕ) (mapping : Mapping)
  | next (r : ℕ) (key : String)
  | done (r : ℕ)
  | step (r : ℕ)
  deriving DecidableEq

/-- The request whose thread takes the step. -/
def Label.actor : Label Channel → Option ℕ
  | request r _ | next r _ | done r | step r => some r
  | _ => none

/-- The channel whose life takes a turn, with its life before and after. -/
def Label.turn : Label Channel → Option (Channel × Life × Life)
  | channelActive c => some (c, .fresh, .active)
  | becomesInactive c => some (c, .active, .inactive)
  | channelInactive c => some (c, .inactive, .gone)
  | _ => none

def initial : Registry Channel := ⟨∅, fun _ => .fresh, fun _ => none⟩

def isActive (s : Registry Channel) (channel : Channel) : Bool := s.life channel = .active

def setRequest (s : Registry Channel) (r : ℕ) (q : Request Channel) : Registry Channel :=
  { s with requests := Function.update s.requests r (some q) }

/-- Change the map, if there is anything to change. The iterators of all requests notice. -/
def apply (s : Registry Channel) : Option (MapOp String Channel) → Registry Channel
  | none => s
  | some op =>
    { s with
      channels := op.apply s.channels
      requests := fun r => (s.requests r).map (·.observe (some op)) }

variable [DecidableEq Channel]

def setLife (s : Registry Channel) (channel : Channel) (life : Life) : Registry Channel :=
  { s with life := Function.update s.life channel life }

/-- What a step does to the map: `ChannelMap.addChannel`, `ChannelMap.remove`, or the `cs.remove` of
a request. -/
def mapOp (ids : ChannelIds Channel) (s : Registry Channel) :
    Label Channel → Option (MapOp String Channel)
  | .channelActive channel => some (.put (ids.asLongText channel) channel)
  | .channelInactive channel => some (.remove (ids.asLongText channel))
  | .step r => (s.requests r).bind Request.mapOp
  | _ => none

/-- What a step does besides. -/
def act (s : Registry Channel) : Label Channel → Option (Registry Channel)
  | .channelActive channel =>
    if s.life channel = .fresh then some (s.setLife channel .active) else none
  | .becomesInactive channel =>
    if s.life channel = .active then some (s.setLife channel .inactive) else none
  | .channelInactive channel =>
    if s.life channel = .inactive then some (s.setLife channel .gone) else none
  | .request r mapping =>
    if s.requests r = none then some (s.setRequest r (.start s.channels mapping)) else none
  | .next r key => (s.requests r).bind fun q => (q.next key).map (s.setRequest r)
  | .done r => (s.requests r).bind fun q => q.done.map (s.setRequest r)
  | .step r => (s.requests r).bind fun q => (q.step s.channels s.isActive).map (s.setRequest r)

def step (ids : ChannelIds Channel) (s : Registry Channel) (l : Label Channel) :
    Option (Registry Channel) :=
  (s.act l).map (·.apply (s.mapOp ids l))

/-- The registry of a server that has just started. -/
def machine (ids : ChannelIds Channel) : Machine (Registry Channel) (Label Channel) :=
  ⟨initial, step ids⟩

end Registry

/-! ## What a step does to a request -/

namespace Request

theorem next_eq_some {q q' : Request Channel} {key : String} (h : q.next key = some q') :
    q.place = .head ∧ ∃ it, q.iter.next key = some it ∧
      q' = { q with iter := it, place := .get key } := by
  unfold next at h
  split at h
  · rename_i hplace
    obtain ⟨it, hit, rfl⟩ := Option.map_eq_some_iff.1 h
    exact ⟨hplace, it, hit, rfl⟩
  · cases h

theorem done_eq_some {q q' : Request Channel} (h : q.done = some q') :
    q.place = .head ∧ q.iter.CanFinish ∧ q' = q.moveTo .returned := by
  unfold done at h
  split at h
  · rename_i hplace
    obtain ⟨hfinish, hq⟩ := Option.ite_none_right_eq_some.1 h
    exact ⟨hplace, hfinish, (Option.some.inj hq).symm⟩
  · cases h

theorem mapOp_eq_some {q : Request Channel} {op : MapOp String Channel} (h : q.mapOp = some op) :
    ∃ key c, q.place = .remove key c ∧ op = .remove key := by
  unfold mapOp at h
  split at h
  · rename_i key c hplace
    exact ⟨key, c, hplace, (Option.some.inj h).symm⟩
  · cases h

section
variable (q : Request Channel) (op : Option (MapOp String Channel))

@[simp] theorem place_observe : (q.observe op).place = q.place := by cases op <;> rfl

@[simp] theorem mapping_observe : (q.observe op).mapping = q.mapping := by cases op <;> rfl

@[simp] theorem log_observe : (q.observe op).log = q.log := by cases op <;> rfl

end

/-- The steps of the loop's body, one by one. -/
inductive Body (channels : Contents String Channel) (isActive : Channel → Bool)
    (q : Request Channel) : Request Channel → Prop
  | get {key : String} (hplace : q.place = .get key) :
    Body channels isActive q (q.moveTo (.isActive key (channels.lookup key)))
  | nullPointer {key : String} (hplace : q.place = .isActive key none) :
    Body channels isActive q (q.moveTo (.aborted .nullPointer))
  | active {key : String} {channel : Channel} {msg : Bytes}
    (hplace : q.place = .isActive key (some channel)) (hmapping : q.mapping = .insertRow msg)
    (hactive : isActive channel = true) :
    Body channels isActive q (q.record (.checked channel true) (.notNull key (some channel)))
  | activeRemove {key : String} {channel : Channel}
    (hplace : q.place = .isActive key (some channel)) (hmapping : q.mapping = .remove)
    (hactive : isActive channel = true) :
    Body channels isActive q (q.record (.checked channel true) (.close key channel))
  | inactive {key : String} {channel : Channel}
    (hplace : q.place = .isActive key (some channel) ∨ q.place = .notNull key (some channel))
    (hactive : isActive channel = false) :
    Body channels isActive q (q.record (.checked channel false) .head)
  | null {key : String} (hplace : q.place = .notNull key none) :
    Body channels isActive q (q.moveTo .head)
  | notNull {key : String} {channel : Channel}
    (hplace : q.place = .notNull key (some channel)) (hactive : isActive channel = true) :
    Body channels isActive q (q.record (.checked channel true) (.write key channel))
  | write {key : String} {channel : Channel} {msg : Bytes}
    (hplace : q.place = .write key channel) (hmapping : q.mapping = .insertRow msg) :
    Body channels isActive q (q.write channel (TestServerController.insertRowBuf msg))
  | close {key : String} {channel : Channel} (hplace : q.place = .close key channel) :
    Body channels isActive q (q.record (.closed channel) (.remove key channel))
  | remove {key : String} {channel : Channel} (hplace : q.place = .remove key channel) :
    Body channels isActive q (q.record (.removed key) .head)

theorem body_of_step {channels : Contents String Channel} {isActive : Channel → Bool}
    {q q' : Request Channel} (h : q.step channels isActive = some q') :
    Body channels isActive q q' := by
  unfold step at h
  cases hplace : q.place with
  | get key =>
    simp only [hplace, Option.some.injEq] at h
    exact h ▸ .get hplace
  | isActive key channel =>
    cases channel with
    | none =>
      simp only [hplace, Option.some.injEq] at h
      exact h ▸ .nullPointer hplace
    | some channel =>
      cases hactive : isActive channel with
      | false =>
        simp only [hplace, hactive, Bool.false_eq_true, if_false, Option.some.injEq] at h
        exact h ▸ .inactive (Or.inl hplace) hactive
      | true =>
        cases hmapping : q.mapping with
        | insertRow msg =>
          simp only [hplace, hactive, hmapping, if_true, Option.some.injEq] at h
          exact h ▸ .active hplace hmapping hactive
        | remove =>
          simp only [hplace, hactive, hmapping, if_true, Option.some.injEq] at h
          exact h ▸ .activeRemove hplace hmapping hactive
  | notNull key channel =>
    cases channel with
    | none =>
      simp only [hplace, Option.some.injEq] at h
      exact h ▸ .null hplace
    | some channel =>
      cases hactive : isActive channel with
      | false =>
        simp only [hplace, hactive, Bool.false_eq_true, if_false, Option.some.injEq] at h
        exact h ▸ .inactive (Or.inr hplace) hactive
      | true =>
        simp only [hplace, hactive, if_true, Option.some.injEq] at h
        exact h ▸ .notNull hplace hactive
  | write key channel =>
    cases hmapping : q.mapping with
    | insertRow msg =>
      simp only [hplace, hmapping, Option.some.injEq] at h
      exact h ▸ .write hplace hmapping
    | remove =>
      simp only [hplace, hmapping] at h
      cases h
  | close key channel =>
    simp only [hplace, Option.some.injEq] at h
    exact h ▸ .close hplace
  | remove key channel =>
    simp only [hplace, Option.some.injEq] at h
    exact h ▸ .remove hplace
  | head | returned | aborted ex =>
    simp only [hplace] at h
    cases h

/-- A step of the body changes neither the mapping nor the iterator, and the log only grows. -/
theorem Body.keeps {channels : Contents String Channel} {isActive : Channel → Bool}
    {q q' : Request Channel} (h : Body channels isActive q q') :
    q'.mapping = q.mapping ∧ q'.iter = q.iter ∧ q.log <+: q'.log := by
  cases h with
  | @write key channel msg =>
    cases TestServerController.insertRowBuf msg with
    | ok buf => exact ⟨rfl, rfl, List.prefix_append _ _⟩
    | error ex => exact ⟨rfl, rfl, List.prefix_rfl⟩
  | _ => exact ⟨rfl, rfl, by simp [moveTo, record]⟩

/-- A step of the body logs at most one thing, and of a check what the channel answers. -/
theorem Body.log {channels : Contents String Channel} {isActive : Channel → Bool}
    {q q' : Request Channel} (h : Body channels isActive q q') :
    q'.log = q.log ∨ ∃ done, q'.log = q.log ++ [done] ∧
      ∀ channel b, done = .checked channel b → isActive channel = b := by
  cases h with
  | active _ _ hactive | activeRemove _ _ hactive | inactive _ hactive | notNull _ hactive =>
    refine Or.inr ⟨_, rfl, ?_⟩
    intro channel b heq
    obtain ⟨rfl, rfl⟩ := Done.checked.inj heq
    exact hactive
  | @write key channel msg =>
    cases TestServerController.insertRowBuf msg with
    | ok buf => exact Or.inr ⟨_, rfl, fun channel b heq => by cases heq⟩
    | error ex => exact Or.inl rfl
  | close | remove => exact Or.inr ⟨_, rfl, fun channel b heq => by cases heq⟩
  | _ => exact Or.inl rfl

/-- What becomes of the request `r` at a step of the registry, before its iterator notices what the
step does to the map. -/
def after (s : Registry Channel) (r : ℕ) (q : Request Channel) :
    Registry.Label Channel → Option (Request Channel)
  | .request r' _ => if r' = r then none else some q
  | .next r' key => if r' = r then q.next key else some q
  | .done r' => if r' = r then q.done else some q
  | .step r' => if r' = r then q.step s.channels s.isActive else some q
  | _ => some q

theorem after_cases {s : Registry Channel} {r : ℕ} {q q' : Request Channel}
    {l : Registry.Label Channel} (h : q.after s r l = some q') :
    (l.actor ≠ some r ∧ q' = q) ∨ (∃ key, l = .next r key ∧ q.next key = some q') ∨
      (l = .done r ∧ q.done = some q') ∨
      (l = .step r ∧ q.step s.channels s.isActive = some q') := by
  cases l with
  | request r' mapping =>
    obtain ⟨hr, rfl⟩ := by simpa [after] using h
    exact Or.inl ⟨by simpa [Registry.Label.actor] using hr, rfl⟩
  | next r' key =>
    by_cases hr : r' = r
    · subst hr
      exact Or.inr (Or.inl ⟨key, rfl, by simpa [after] using h⟩)
    · exact Or.inl ⟨by simpa [Registry.Label.actor] using hr, by simpa [after, hr, eq_comm] using h⟩
  | done r' =>
    by_cases hr : r' = r
    · subst hr
      exact Or.inr (Or.inr (Or.inl ⟨rfl, by simpa [after] using h⟩))
    · exact Or.inl ⟨by simpa [Registry.Label.actor] using hr, by simpa [after, hr, eq_comm] using h⟩
  | step r' =>
    by_cases hr : r' = r
    · subst hr
      exact Or.inr (Or.inr (Or.inr ⟨rfl, by simpa [after] using h⟩))
    · exact Or.inl ⟨by simpa [Registry.Label.actor] using hr, by simpa [after, hr, eq_comm] using h⟩
  | channelActive c => exact Or.inl ⟨by simp [Registry.Label.actor], (Option.some.inj h).symm⟩
  | becomesInactive c => exact Or.inl ⟨by simp [Registry.Label.actor], (Option.some.inj h).symm⟩
  | channelInactive c => exact Or.inl ⟨by simp [Registry.Label.actor], (Option.some.inj h).symm⟩

/-- The mapping stays, and the log only grows. -/
theorem after_keeps {s : Registry Channel} {r : ℕ} {q q' : Request Channel}
    {l : Registry.Label Channel} (h : q.after s r l = some q') :
    q'.mapping = q.mapping ∧ q.log <+: q'.log := by
  rcases after_cases h with ⟨-, rfl⟩ | ⟨key, -, hnext⟩ | ⟨-, hdone⟩ | ⟨-, hstep⟩
  · exact ⟨rfl, List.prefix_rfl⟩
  · obtain ⟨-, it, -, rfl⟩ := next_eq_some hnext
    exact ⟨rfl, List.prefix_rfl⟩
  · obtain ⟨-, -, rfl⟩ := done_eq_some hdone
    exact ⟨rfl, List.prefix_rfl⟩
  · exact ⟨(body_of_step hstep).keeps.1, (body_of_step hstep).keeps.2.2⟩

/-- Only a step of the body does anything. -/
theorem log_of_after {s : Registry Channel} {r : ℕ} {q q' : Request Channel}
    {l : Registry.Label Channel} (h : q.after s r l = some q') :
    q'.log = q.log ∨ (l = .step r ∧ Body s.channels s.isActive q q') := by
  rcases after_cases h with ⟨-, rfl⟩ | ⟨key, -, hnext⟩ | ⟨-, hdone⟩ | ⟨rfl, hstep⟩
  · exact Or.inl rfl
  · obtain ⟨-, it, -, rfl⟩ := next_eq_some hnext
    exact Or.inl rfl
  · obtain ⟨-, -, rfl⟩ := done_eq_some hdone
    exact Or.inl rfl
  · exact Or.inr ⟨rfl, body_of_step hstep⟩

end Request

namespace Registry

section
variable (s : Registry Channel) (op : Option (MapOp String Channel))

@[simp] theorem life_apply : (s.apply op).life = s.life := by cases op <;> rfl

theorem requests_setRequest (r r' : ℕ) (q : Request Channel) :
    (s.setRequest r q).requests r' = if r' = r then some q else s.requests r' := by
  simp [setRequest, Function.update_apply]

theorem channels_apply :
    (s.apply op).channels = op.elim s.channels (MapOp.apply s.channels) := by
  cases op <;> rfl

theorem requests_apply (r : ℕ) :
    (s.apply op).requests r = (s.requests r).map (·.observe op) := by
  cases op with
  | none => simp [apply, Request.observe]
  | some op => rfl

end

variable [DecidableEq Channel] {ids : ChannelIds Channel} {s t : Registry Channel}
  {l : Label Channel}

theorem step_eq_some (h : step ids s l = some t) :
    ∃ u, s.act l = some u ∧ t = u.apply (s.mapOp ids l) := by
  obtain ⟨u, hu, rfl⟩ := Option.map_eq_some_iff.1 h
  exact ⟨u, hu, rfl⟩

theorem channels_act {u : Registry Channel} (h : s.act l = some u) : u.channels = s.channels := by
  cases l with
  | channelActive c | becomesInactive c | channelInactive c | request r mapping =>
    obtain ⟨-, h⟩ := Option.ite_none_right_eq_some.1 h
    exact Option.some.inj h ▸ rfl
  | next r key | done r | step r =>
    obtain ⟨q, -, h⟩ := Option.bind_eq_some_iff.1 h
    obtain ⟨q', -, rfl⟩ := Option.map_eq_some_iff.1 h
    rfl

theorem requests_act {u : Registry Channel} (h : s.act l = some u) {r : ℕ} {q : Request Channel}
    (hq : s.requests r = some q) : ∃ q', q.after s r l = some q' ∧ u.requests r = some q' := by
  cases l with
  | channelActive c | becomesInactive c | channelInactive c =>
    obtain ⟨-, h⟩ := Option.ite_none_right_eq_some.1 h
    obtain rfl := Option.some.inj h
    exact ⟨q, rfl, hq⟩
  | request r' mapping =>
    obtain ⟨hnone, h⟩ := Option.ite_none_right_eq_some.1 h
    obtain rfl := Option.some.inj h
    have hr : r ≠ r' := by
      rintro rfl
      cases hq.symm.trans hnone
    rw [requests_setRequest, if_neg hr]
    exact ⟨q, if_neg hr.symm, hq⟩
  | next r' key | done r' | step r' =>
    obtain ⟨q₀, hq₀, h⟩ := Option.bind_eq_some_iff.1 h
    obtain ⟨q', hq', rfl⟩ := Option.map_eq_some_iff.1 h
    rw [requests_setRequest]
    by_cases hr : r' = r
    · subst hr
      obtain rfl := Option.some.inj (hq₀.symm.trans hq)
      exact ⟨q', (if_pos rfl).trans hq', if_pos rfl⟩
    · exact ⟨q, if_neg hr, (if_neg (Ne.symm hr)).trans hq⟩

theorem requests_act_none {u : Registry Channel} (h : s.act l = some u) {r : ℕ}
    (hr : s.requests r = none) :
    u.requests r = none ∨
      ∃ mapping, l = .request r mapping ∧ u.requests r = some (.start s.channels mapping) := by
  cases l with
  | channelActive c | becomesInactive c | channelInactive c =>
    obtain ⟨-, h⟩ := Option.ite_none_right_eq_some.1 h
    obtain rfl := Option.some.inj h
    exact Or.inl hr
  | request r' mapping =>
    obtain ⟨-, h⟩ := Option.ite_none_right_eq_some.1 h
    obtain rfl := Option.some.inj h
    rw [requests_setRequest]
    split_ifs with heq
    · exact Or.inr ⟨mapping, by rw [heq], rfl⟩
    · exact Or.inl hr
  | next r' key | done r' | step r' =>
    obtain ⟨q₀, hq₀, h⟩ := Option.bind_eq_some_iff.1 h
    obtain ⟨q', -, rfl⟩ := Option.map_eq_some_iff.1 h
    have hne : r ≠ r' := by
      rintro rfl
      cases hq₀.symm.trans hr
    exact Or.inl ((requests_setRequest s r' r q').trans ((if_neg hne).trans hr))

/-- A request stays, and its thread or a change of the map moves it on. -/
theorem requests_step (h : step ids s l = some t) {r : ℕ} {q : Request Channel}
    (hq : s.requests r = some q) :
    ∃ q', q.after s r l = some q' ∧ t.requests r = some (q'.observe (s.mapOp ids l)) := by
  obtain ⟨u, hu, rfl⟩ := step_eq_some h
  obtain ⟨q', hafter, hq'⟩ := requests_act hu hq
  exact ⟨q', hafter, by rw [requests_apply, hq', Option.map_some]⟩

/-- Where a request comes from: it is new, or it was there before the step. -/
theorem requests_of_step (h : step ids s l = some t) {r : ℕ} {q' : Request Channel}
    (hq' : t.requests r = some q') :
    (∃ mapping, l = .request r mapping ∧ q' = .start s.channels mapping) ∨
      ∃ q q₁, s.requests r = some q ∧ q.after s r l = some q₁ ∧
        q' = q₁.observe (s.mapOp ids l) := by
  cases hq : s.requests r with
  | some q =>
    obtain ⟨q₁, hafter, hq₁⟩ := requests_step h hq
    exact Or.inr ⟨q, q₁, rfl, hafter, Option.some.inj (hq'.symm.trans hq₁)⟩
  | none =>
    obtain ⟨u, hu, rfl⟩ := step_eq_some h
    rw [requests_apply] at hq'
    rcases requests_act_none hu hq with hnone | ⟨mapping, rfl, hstart⟩
    · rw [hnone] at hq'
      cases hq'
    · rw [hstart] at hq'
      exact Or.inl ⟨mapping, rfl, (Option.some.inj hq').symm⟩

theorem channels_step (h : step ids s l = some t) :
    t.channels = (s.mapOp ids l).elim s.channels (MapOp.apply s.channels) := by
  obtain ⟨u, hu, rfl⟩ := step_eq_some h
  rw [channels_apply, channels_act hu]

/-- A step either leaves the life of every channel as it is, or one channel takes its turn. -/
theorem life_step (h : step ids s l = some t) :
    match l.turn with
    | none => t.life = s.life
    | some (c, before, later) => s.life c = before ∧ t.life = Function.update s.life c later := by
  obtain ⟨u, hu, rfl⟩ := step_eq_some h
  rw [life_apply]
  cases l with
  | channelActive c | becomesInactive c | channelInactive c =>
    obtain ⟨hlife, hu⟩ := Option.ite_none_right_eq_some.1 hu
    exact ⟨hlife, Option.some.inj hu ▸ rfl⟩
  | request r mapping =>
    obtain ⟨-, hu⟩ := Option.ite_none_right_eq_some.1 hu
    exact Option.some.inj hu ▸ rfl
  | next r key | done r | step r =>
    obtain ⟨q, -, hu⟩ := Option.bind_eq_some_iff.1 hu
    obtain ⟨q', -, rfl⟩ := Option.map_eq_some_iff.1 hu
    rfl

end Registry

end MmtxSample
