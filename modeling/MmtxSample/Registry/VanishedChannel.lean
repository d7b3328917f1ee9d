import MmtxSample.Registry.Model

/-!
# Channels that vanish under a loop

Both loops of `TestServerController` call `isActive()` on what `cs.get(key)` returns, before
`insertRow` asks whether it is null. Between the iterator's `next` and the `get` another thread may
take the key out of the map, and the iterator itself may return a key that has been taken out
already. In both cases the request is aborted by a `NullPointerException`, and the channels it has
not visited get nothing.

`never_null_iff` says that nothing else can go wrong: in a run no request is ever on its way into
the exception exactly when the iterators return present keys only and no key is taken out while a
request stands before its `get`.
-/

namespace MmtxSample

open Java TransitionSystem ConcurrentMap

variable {Channel : Type*}

/-- The request's own next steps do not dereference null. -/
structure Request.Safe (channels : Contents String Channel) (q : Request Channel) : Prop where
  present : ∀ key, q.place = .get key → key ∈ channels
  fetched : ∀ key, q.place ≠ .isActive key none
  notAborted : q.place ≠ .aborted .nullPointer

namespace Registry

variable {ids : ChannelIds Channel} {s t : Registry Channel} {l : Label Channel}

theorem safe_observe {channels : Contents String Channel} {q : Request Channel}
    (h : q.Safe channels) (op : Option (MapOp String Channel)) : (q.observe op).Safe channels := by
  obtain ⟨hpresent, hfetched, hnot⟩ := h
  exact ⟨by simpa using hpresent, by simpa using hfetched, by simpa using hnot⟩

/-- Making the frame of a push throws nothing but `IllegalArgumentException`. -/
theorem insertRowBuf_ne_nullPointer (msg : Bytes) :
    TestServerController.insertRowBuf msg ≠ .error .nullPointer := by
  intro h
  by_cases hint : 5 + msg.length ≤ intMax
  · cases (customBuf_eq hint).symm.trans h
  · cases (customBuf_overflow (Nat.lt_of_not_le hint)).symm.trans h

/-- After a step of the body a request does not depend on the map. -/
theorem safe_body {channels channels' : Contents String Channel} {isActive : Channel → Bool}
    {q q' : Request Channel} (h : q.Safe channels)
    (hbody : Request.Body channels isActive q q') : q'.Safe channels' := by
  cases hbody with
  | @get key hplace =>
    obtain ⟨c, hc⟩ := Finmap.mem_iff.1 (h.present key hplace)
    rw [hc]
    constructor <;> simp [Request.moveTo]
  | nullPointer hplace => exact absurd hplace (h.fetched _)
  | @write key c msg hplace hmapping =>
    have hne := insertRowBuf_ne_nullPointer msg
    cases hbuf : TestServerController.insertRowBuf msg with
    | ok buf => constructor <;> simp [Request.write, Request.record]
    | error ex =>
      have hex : ex ≠ .nullPointer := fun heq => hne (heq ▸ hbuf)
      constructor <;> simp [Request.write, Request.moveTo, hex]
  | _ => constructor <;> simp [Request.moveTo, Request.record]

/-- What the request `r` needs of a step: its iterator returns a key that is in the map, and no key
is taken out while the request stands before the `get` of that key. -/
def Spares (ids : ChannelIds Channel) (s : Registry Channel) (l : Label Channel) (r : ℕ) : Prop :=
  (∀ key, l = .next r key → key ∈ s.channels) ∧
  ∀ key, s.mapOp ids l = some (.remove key) → ∀ q, s.requests r = some q → q.place ≠ .get key

/-- The thread of a request spares the request itself. -/
theorem spares_own (s : Registry Channel) (r : ℕ) : s.Spares ids (.step r) r := by
  refine ⟨by simp, ?_⟩
  intro key hop q hq hplace
  obtain ⟨q', hq', hop⟩ := Option.bind_eq_some_iff.1 hop
  obtain rfl := Option.some.inj (hq'.symm.trans hq)
  obtain ⟨key', c, hplace', -⟩ := Request.mapOp_eq_some hop
  cases hplace'.symm.trans hplace

variable [DecidableEq Channel]

/-- `Spares` as a test. -/
def spares (ids : ChannelIds Channel) (s : Registry Channel) (l : Label Channel) (r : ℕ) : Bool :=
  (match l with
    | .next r' key => r' ≠ r ∨ (s.channels.lookup key).isSome
    | _ => true) &&
  (match s.mapOp ids l with
    | some (.remove key) => (s.requests r).all fun q => q.place ≠ .get key
    | _ => true)

theorem spares_iff {r : ℕ} : s.spares ids l r = true ↔ s.Spares ids l r := by
  unfold spares Spares
  rw [Bool.and_eq_true]
  refine and_congr ?_ ?_
  · cases l with
    | next r' key =>
      rw [decide_eq_true_eq, Finmap.lookup_isSome]
      constructor
      · intro h key' heq
        obtain ⟨rfl, rfl⟩ := Label.next.inj heq
        exact h.resolve_left fun hne => hne rfl
      · intro h
        by_cases hr : r' = r
        · exact Or.inr (h key (hr ▸ rfl))
        · exact Or.inl hr
    | _ => simp
  · cases s.mapOp ids l with
    | none => simp
    | some op =>
      cases op with
      | put key c => simp
      | remove key => cases s.requests r <;> simp

instance (ids : ChannelIds Channel) (s : Registry Channel) (l : Label Channel) (r : ℕ) :
    Decidable (s.Spares ids l r) := decidable_of_iff _ spares_iff

/-- The request is not on its way into a `NullPointerException`: left to itself, it does not get
there. -/
def NeverNull (ids : ChannelIds Channel) (s : Registry Channel) (r : ℕ) : Prop :=
  ∀ n t q, (machine ids).exec s (List.replicate n (.step r)) = some t → t.requests r = some q →
    q.place ≠ .aborted .nullPointer

/-! ## Spared requests are safe -/

/-- A key stays in the map unless it is taken out. -/
theorem mem_channels_step (h : step ids s l = some t) {key : String} (hkey : key ∈ s.channels)
    (hne : s.mapOp ids l ≠ some (.remove key)) : key ∈ t.channels := by
  rw [channels_step h]
  cases hop : s.mapOp ids l with
  | none => exact hkey
  | some op =>
    rw [hop] at hne
    cases op with
    | put key' c => exact Finmap.mem_insert.2 (Or.inr hkey)
    | remove key' => exact Finmap.mem_erase.2 ⟨fun heq => hne (by rw [heq]), hkey⟩

/-- A step that spares a safe request leaves it safe. -/
theorem safe_step (hstep : step ids s l = some t) {r : ℕ} (hspares : s.Spares ids l r)
    (h : ∀ q, s.requests r = some q → q.Safe s.channels) :
    ∀ q, t.requests r = some q → q.Safe t.channels := by
  intro q' hq'
  rcases requests_of_step hstep hq' with ⟨mapping, -, rfl⟩ | ⟨q, q₁, hq, hafter, rfl⟩
  · constructor <;> simp [Request.start]
  · refine safe_observe ?_ _
    have hsafe := h q hq
    rcases Request.after_cases hafter with ⟨-, rfl⟩ | ⟨key, rfl, hnext⟩ | ⟨-, hdone⟩ | ⟨-, hbody⟩
    · refine ⟨?_, hsafe.fetched, hsafe.notAborted⟩
      intro key hplace
      exact mem_channels_step hstep (hsafe.present key hplace)
        fun hop => hspares.2 key hop q₁ hq hplace
    · obtain ⟨-, it, -, rfl⟩ := Request.next_eq_some hnext
      have hkey := mem_channels_step hstep (hspares.1 key rfl) (by simp [mapOp])
      exact ⟨fun key' hplace => by cases hplace; exact hkey, by simp, by simp⟩
    · obtain ⟨-, -, rfl⟩ := Request.done_eq_some hdone
      constructor <;> simp [Request.moveTo]
    · exact safe_body hsafe (Request.body_of_step hbody)

theorem neverNull_of_safe {r : ℕ} (h : ∀ q, s.requests r = some q → q.Safe s.channels) :
    s.NeverNull ids r := by
  intro n t q hexec hq
  induction n generalizing s with
  | zero =>
    obtain rfl := Option.some.inj hexec
    exact (h q hq).notAborted
  | succ n ih =>
    rw [List.replicate_succ] at hexec
    obtain ⟨u, hstep, hexec⟩ := Machine.exec_cons_eq_some.1 hexec
    exact ih (safe_step hstep (spares_own s r) h) hexec

/-! ## A request that is not safe is aborted -/

/-- A step of the body that leaves the map alone. -/
theorem step_of_body {r : ℕ} {q : Request Channel} (hq : s.requests r = some q)
    (q' : Request Channel) (hstep : q.step s.channels s.isActive = some q') (hop : q.mapOp = none) :
    (machine ids).step s (.step r) = some (s.setRequest r q') := by
  simp [machine, step, act, mapOp, hq, hstep, hop, apply]

theorem NeverNull.own_step {r : ℕ} (h : s.NeverNull ids r)
    (hstep : (machine ids).step s (.step r) = some t) : t.NeverNull ids r :=
  fun n u q hexec => h (n + 1) u q (Machine.exec_cons_eq_some.2 ⟨t, hstep, hexec⟩)

theorem NeverNull.fetched {r : ℕ} (h : s.NeverNull ids r) {q : Request Channel}
    (hq : s.requests r = some q) (key : String) : q.place ≠ .isActive key none := by
  intro hplace
  have habort := h.own_step (step_of_body hq (q.moveTo (.aborted .nullPointer))
    (by simp [Request.step, hplace]) (by simp [Request.mapOp, hplace]))
  exact habort 0 _ _ rfl ((requests_setRequest _ _ _ _).trans (if_pos rfl)) rfl

/-- A request that stands before the `get` of a missing key fetches null. -/
theorem NeverNull.present {r : ℕ} (h : s.NeverNull ids r) {q : Request Channel}
    (hq : s.requests r = some q) {key : String} (hplace : q.place = .get key) :
    key ∈ s.channels := by
  by_contra hkey
  have hlookup : s.channels.lookup key = none := Finmap.lookup_eq_none.2 hkey
  have hget := h.own_step (step_of_body hq (q.moveTo (.isActive key none))
    (by simp [Request.step, hplace, hlookup]) (by simp [Request.mapOp, hplace]))
  exact hget.fetched ((requests_setRequest _ _ _ _).trans (if_pos rfl)) key rfl

/-! ## Runs -/

/-- The steps of the run spare all requests. -/
def AllSpare (ids : ChannelIds Channel) (ls : List (Label Channel)) : Prop :=
  ∀ p l u, p ++ [l] <+: ls → (machine ids).Reaches p u → ∀ r, u.Spares ids l r

theorem safe_reaches {ls : List (Label Channel)} (h : (machine ids).Reaches ls s)
    (hspare : AllSpare ids ls) : ∀ r q, s.requests r = some q → q.Safe s.channels := by
  refine Machine.history_invariant (M := machine ids) (I := fun ls s =>
    AllSpare ids ls → ∀ r q, s.requests r = some q → q.Safe s.channels) ?_ ?_ h hspare
  · intro _ r q hq
    cases hq
  · intro ls s l t hs ih hstep hspare r
    have hbefore : AllSpare ids ls :=
      fun p l u hp => hspare p l u (hp.trans (List.prefix_append _ _))
    exact safe_step hstep (hspare ls l s List.prefix_rfl hs r) (ih hbefore r)

/-- A step after which no request is on its way into the exception has spared them all. -/
theorem spares_of_neverNull (hstep : step ids s l = some t) (h : ∀ r, t.NeverNull ids r) (r : ℕ) :
    s.Spares ids l r := by
  have hchannels := channels_step hstep
  constructor
  · rintro key rfl
    obtain ⟨u, hact, -⟩ := step_eq_some hstep
    obtain ⟨q, hq, -⟩ := Option.bind_eq_some_iff.1 hact
    obtain ⟨q', hafter, hq'⟩ := requests_step hstep hq
    obtain ⟨-, it, -, rfl⟩ := Request.next_eq_some ((if_pos rfl).symm.trans hafter)
    have hkey : key ∈ t.channels := (h r).present hq' (by simp)
    rw [hchannels] at hkey
    exact hkey
  · intro key hop q hq hplace
    obtain ⟨q', hafter, hq'⟩ := requests_step hstep hq
    rcases Request.after_cases hafter with ⟨-, rfl⟩ | ⟨key', -, hnext⟩ | ⟨-, hdone⟩ | ⟨rfl, -⟩
    · have hkey := (h r).present hq' (by simpa using hplace)
      rw [hchannels, hop] at hkey
      exact (Finmap.mem_erase.1 hkey).1 rfl
    · cases hplace.symm.trans (Request.next_eq_some hnext).1
    · cases hplace.symm.trans (Request.done_eq_some hdone).1
    · exact (spares_own s r).2 key hop q hq hplace

/-- **When no channel vanishes under a loop.** In no state of a run is a request on its way into a
`NullPointerException` exactly when every step of the run spares every request. -/
theorem never_null_iff {ls : List (Label Channel)} (h : (machine ids).Reaches ls s) :
    (machine ids).Along ls (fun u => ∀ r, u.NeverNull ids r) ↔ AllSpare ids ls := by
  constructor
  · intro hnever p l u hp hu r
    obtain ⟨t, ht⟩ := h.of_prefix hp
    obtain ⟨u', hu', hstep⟩ := Machine.reaches_snoc.1 ht
    obtain rfl := hu'.unique hu
    exact spares_of_neverNull hstep (hnever _ hp t ht) r
  · intro hspare p hp u hu r
    have hbefore : AllSpare ids p := fun p' l u hp' => hspare p' l u (hp'.trans hp)
    exact neverNull_of_safe (safe_reaches hu hbefore r)

theorem requests_of_notMem {ls : List (Label Channel)} (h : (machine ids).Reaches ls s) {r : ℕ}
    (hr : ∀ l ∈ ls, l.actor ≠ some r) : s.requests r = none := by
  refine Machine.history_invariant (M := machine ids)
    (I := fun ls s => (∀ l ∈ ls, l.actor ≠ some r) → s.requests r = none) ?_ ?_ h hr
  · exact fun _ => rfl
  · intro ls s l t _ ih hstep hr
    have hbefore := ih fun l' hl' => hr l' (List.mem_append_left _ hl')
    obtain ⟨u, hu, rfl⟩ := step_eq_some hstep
    rw [requests_apply, Option.map_eq_none_iff]
    rcases requests_act_none hu hbefore with hnone | ⟨mapping, rfl, -⟩
    · exact hnone
    · exact absurd rfl (hr _ (List.mem_append_right _ List.mem_cons_self))

/-- In a run of the first `n` requests it is enough to look at these. -/
theorem allSpare_of_actors {ls : List (Label Channel)} {n : ℕ}
    (hactors : ∀ l ∈ ls, ∀ r ∈ l.actor, r < n)
    (hspare : ∀ x ∈ ls.inits, ∀ u ∈ (machine ids).exec (machine ids).init x.dropLast,
      ∀ l ∈ x.getLast?, ∀ r < n, u.Spares ids l r) : AllSpare ids ls := by
  intro p l u hp hu r
  have hmem : ∀ l' ∈ p ++ [l], l' ∈ ls := fun l' hl' => hp.subset hl'
  by_cases hr : r < n
  · exact hspare (p ++ [l]) ((List.mem_inits _ _).2 hp) u
      (by rw [List.dropLast_concat]; exact hu) l (by simp) r hr
  · have hnot : ∀ l' ∈ p ++ [l], l'.actor ≠ some r :=
      fun l' hl' hactor => hr (hactors l' (hmem l' hl') r hactor)
    have hnone := requests_of_notMem hu fun l' hl' => hnot l' (List.mem_append_left _ hl')
    refine ⟨?_, fun key _ q hq => absurd (hnone.symm.trans hq) (by simp)⟩
    rintro key rfl
    exact absurd rfl (hnot _ (List.mem_append_right _ List.mem_cons_self))

/-- A push and a removal at once. The removal takes `a` out of the map after the push has got it and
before it writes to it, and `b` goes away by itself after the push has got it: no request is ever on
its way into the exception. -/
theorem never_null_run :
    let ids : ChannelIds String := ⟨id, Function.injective_id⟩
    let ls : List (Label String) := [.channelActive "a", .channelActive "b",
      .request 0 (.insertRow ⟨[97], by decide⟩), .request 1 .remove, .next 0 "a", .step 0, .step 0,
      .next 1 "a", .step 1, .step 1, .step 1, .step 1, .step 0, .step 0, .next 0 "b", .step 0,
      .becomesInactive "b", .channelInactive "b", .step 0, .done 0, .done 1]
    ∃ s, (machine ids).Reaches ls s ∧ AllSpare ids ls ∧
      (machine ids).Along ls fun u => ∀ r, u.NeverNull ids r := by
  intro ids ls
  have hrun : ∃ s, (machine ids).Reaches ls s := Option.isSome_iff_exists.1 (by decide +kernel)
  have hspare : AllSpare ids ls := allSpare_of_actors (n := 2) (by decide) (by decide +kernel)
  obtain ⟨s, hs⟩ := hrun
  exact ⟨s, hs, hspare, (never_null_iff hs).2 hspare⟩

/-- A channel goes away after the iterator has returned its key: the push is aborted by a
`NullPointerException`, and the other channel, which is there and active, gets nothing. -/
theorem push_aborted :
    let ids : ChannelIds String := ⟨id, Function.injective_id⟩
    let ls : List (Label String) := [.channelActive "a", .channelActive "b",
      .request 0 (.insertRow ⟨[97], by decide⟩), .next 0 "a", .becomesInactive "a",
      .channelInactive "a", .step 0, .step 0]
    ∃ s q, (machine ids).Reaches ls s ∧ s.requests 0 = some q ∧ q.place = .aborted .nullPointer ∧
      s.channels.lookup "b" = some "b" ∧ s.isActive "b" = true ∧ q.log = [] :=
  ⟨_, _, rfl, rfl, rfl, rfl, rfl, rfl⟩

end Registry

end MmtxSample
