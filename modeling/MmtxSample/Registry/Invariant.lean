import MmtxSample.Registry.Model

/-!
# The invariant of the registry

In every state of every run, an entry of the map is a channel under its own id that has become
active and has not fired `channelInactive`, and a channel of that kind which is missing from the map
has been closed by a `remove` request (`registry_invariant`).

The second half is not inductive by itself. A `remove` request takes a key out some time after it
has fetched and closed the channel, so the invariant follows every request through its loop
(`Request.Fetched`): the channel it has fetched is the one whose id is the key, and when it stands
before `cs.remove(key)` it has closed that channel.
-/

namespace MmtxSample

open TransitionSystem ConcurrentMap

variable {Channel : Type*}

/-- What a request knows of the channel it has fetched. -/
def Request.Fetched (ids : ChannelIds Channel) (q : Request Channel) : Prop :=
  match q.place with
  | .isActive key (some c) | .notNull key (some c) | .write key c => key = ids.asLongText c
  | .close key c => key = ids.asLongText c ∧ q.mapping = .remove
  | .remove key c => key = ids.asLongText c ∧ q.mapping = .remove ∧ .closed c ∈ q.log
  | _ => True

namespace Registry

/-- The channel has fired `channelActive` and not `channelInactive`. -/
def Open (s : Registry Channel) (c : Channel) : Prop := s.life c = .active ∨ s.life c = .inactive

/-- Some `remove` request has called `close` on the channel. -/
def ClosedByRemove (s : Registry Channel) (c : Channel) : Prop :=
  ∃ r q, s.requests r = some q ∧ q.mapping = .remove ∧ .closed c ∈ q.log

structure Inv (ids : ChannelIds Channel) (s : Registry Channel) : Prop where
  entries : ∀ key c, s.channels.lookup key = some c → key = ids.asLongText c ∧ s.Open c
  missing : ∀ c, s.Open c → s.channels.lookup (ids.asLongText c) ≠ some c → s.ClosedByRemove c
  fetched : ∀ r q, s.requests r = some q → q.Fetched ids

variable {ids : ChannelIds Channel} {s t : Registry Channel} {l : Label Channel}

/-! ## The requests -/

theorem fetched_start (channels : Contents String Channel) (mapping : Mapping) :
    (Request.start channels mapping).Fetched ids := trivial

theorem fetched_observe {q : Request Channel} (h : q.Fetched ids)
    (op : Option (MapOp String Channel)) : (q.observe op).Fetched ids := by
  cases op <;> exact h

/-- A request that looks a key up finds a channel under its own id. -/
theorem fetched_body {channels : Contents String Channel} {isActive : Channel → Bool}
    {q q' : Request Channel}
    (hentries : ∀ key c, channels.lookup key = some c → key = ids.asLongText c)
    (h : q.Fetched ids) (hbody : Request.Body channels isActive q q') : q'.Fetched ids := by
  cases hbody with
  | @get key hplace =>
    cases hlookup : channels.lookup key with
    | none => trivial
    | some c => exact hentries key c hlookup
  | active hplace hmapping hactive =>
    simp only [Request.Fetched, hplace] at h
    exact h
  | activeRemove hplace hmapping hactive =>
    simp only [Request.Fetched, hplace] at h
    exact ⟨h, hmapping⟩
  | notNull hplace hactive =>
    simp only [Request.Fetched, hplace] at h
    exact h
  | close hplace =>
    simp only [Request.Fetched, hplace] at h
    exact ⟨h.1, h.2, List.mem_append_right _ List.mem_cons_self⟩
  | @write key c msg hplace hmapping =>
    cases TestServerController.insertRowBuf msg <;> trivial
  | _ => trivial

theorem inv_initial : Inv ids (initial : Registry Channel) where
  entries key c hc := by simp [initial] at hc
  missing c hc := by simp [Open, initial] at hc
  fetched r q hq := by simp [initial] at hq

section
variable [DecidableEq Channel]

theorem Inv.fetched_step (h : Inv ids s) (hstep : step ids s l = some t) :
    ∀ r q, t.requests r = some q → q.Fetched ids := by
  intro r q' hq'
  rcases requests_of_step hstep hq' with ⟨mapping, -, rfl⟩ | ⟨q, q₁, hq, hafter, rfl⟩
  · exact fetched_start _ _
  · refine fetched_observe ?_ _
    have hfetched := h.fetched r q hq
    rcases Request.after_cases hafter with ⟨-, rfl⟩ | ⟨key, -, hnext⟩ | ⟨-, hdone⟩ | ⟨-, hbody⟩
    · exact hfetched
    · obtain ⟨-, it, -, rfl⟩ := Request.next_eq_some hnext
      trivial
    · obtain ⟨-, -, rfl⟩ := Request.done_eq_some hdone
      trivial
    · exact fetched_body (fun key c hc => (h.entries key c hc).1) hfetched
        (Request.body_of_step hbody)

theorem ClosedByRemove.step {c : Channel} (h : s.ClosedByRemove c)
    (hstep : step ids s l = some t) : t.ClosedByRemove c := by
  obtain ⟨r, q, hq, hmapping, hclosed⟩ := h
  obtain ⟨q', hafter, hq'⟩ := requests_step hstep hq
  obtain ⟨hkeep, hlog⟩ := Request.after_keeps hafter
  exact ⟨r, _, hq', by simpa [hkeep] using hmapping, by simpa using hlog.subset hclosed⟩

/-! ## The map -/

/-- A step that changes neither the map nor which channels are open. -/
theorem Inv.of_same (h : Inv ids s) (hstep : step ids s l = some t)
    (hchannels : t.channels = s.channels) (hopen : ∀ c, t.Open c ↔ s.Open c) : Inv ids t where
  entries key c hc := by
    obtain ⟨hkey, hc⟩ := h.entries key c (hchannels ▸ hc)
    exact ⟨hkey, (hopen c).2 hc⟩
  missing c hc hne :=
    (h.missing c ((hopen c).1 hc) (hchannels ▸ hne)).step hstep
  fetched := h.fetched_step hstep

/-- A step that takes out the key of one channel, which is open no longer or has been closed by a
`remove` request. -/
theorem Inv.of_erase (h : Inv ids s) (hstep : step ids s l = some t) {c₀ : Channel}
    (hchannels : t.channels = s.channels.erase (ids.asLongText c₀))
    (hopen : ∀ c, c ≠ c₀ → (t.Open c ↔ s.Open c)) (hclosed : t.Open c₀ → t.ClosedByRemove c₀) :
    Inv ids t where
  entries key c hc := by
    have hne : key ≠ ids.asLongText c₀ := by
      rintro rfl
      rw [hchannels, Finmap.lookup_erase] at hc
      cases hc
    rw [hchannels, Finmap.lookup_erase_ne hne] at hc
    obtain ⟨hkey, hc⟩ := h.entries key c hc
    exact ⟨hkey, (hopen c fun heq => hne (heq ▸ hkey)).2 hc⟩
  missing c hc hne := by
    by_cases heq : c = c₀
    · subst heq
      exact hclosed hc
    · have hid : ids.asLongText c ≠ ids.asLongText c₀ := fun h => heq (ids.unique h)
      rw [hchannels, Finmap.lookup_erase_ne hid] at hne
      exact (h.missing c ((hopen c heq).1 hc) hne).step hstep
  fetched := h.fetched_step hstep

/-- A channel becomes active and is put into the map. -/
theorem Inv.channelActive (h : Inv ids s) {c₀ : Channel}
    (hstep : step ids s (.channelActive c₀) = some t) : Inv ids t where
  entries key c hc := by
    obtain ⟨-, hlife⟩ := life_step hstep
    have hchannels : t.channels = s.channels.insert (ids.asLongText c₀) c₀ := channels_step hstep
    rw [hchannels] at hc
    by_cases hkey : key = ids.asLongText c₀
    · subst hkey
      rw [Finmap.lookup_insert] at hc
      obtain rfl := Option.some.inj hc
      exact ⟨rfl, Or.inl (by rw [hlife, Function.update_self])⟩
    · rw [Finmap.lookup_insert_of_ne _ hkey] at hc
      obtain ⟨hid, hc⟩ := h.entries key c hc
      have hne : c ≠ c₀ := fun heq => hkey (heq ▸ hid)
      exact ⟨hid, by simpa [Open, hlife, hne] using hc⟩
  missing c hc hne := by
    obtain ⟨-, hlife⟩ := life_step hstep
    have hchannels : t.channels = s.channels.insert (ids.asLongText c₀) c₀ := channels_step hstep
    rw [hchannels] at hne
    have hc₀ : c ≠ c₀ := by
      rintro rfl
      exact hne (Finmap.lookup_insert _)
    rw [Finmap.lookup_insert_of_ne _ fun heq => hc₀ (ids.unique heq)] at hne
    exact (h.missing c (by simpa [Open, hlife, hc₀] using hc) hne).step hstep
  fetched := h.fetched_step hstep

theorem Inv.step (h : Inv ids s) (hstep : Registry.step ids s l = some t) : Inv ids t := by
  have hlife := life_step hstep
  have hchannels := channels_step hstep
  cases l with
  | channelActive c => exact h.channelActive hstep
  | becomesInactive c =>
    obtain ⟨hactive, hlife⟩ := hlife
    refine h.of_same hstep hchannels ?_
    intro c'
    by_cases hc : c' = c
    · subst hc
      simp [Open, hlife, hactive]
    · simp [Open, hlife, hc]
  | channelInactive c =>
    obtain ⟨-, hlife⟩ := hlife
    refine h.of_erase hstep hchannels (fun c' hc => by simp [Open, hlife, hc]) ?_
    intro hopen
    simp [Open, hlife] at hopen
  | request r mapping | next r key | done r =>
    exact h.of_same hstep hchannels fun c => by simp only [Open, show t.life = s.life from hlife]
  | step r =>
    have hopen : ∀ c, t.Open c ↔ s.Open c :=
      fun c => by simp only [Open, show t.life = s.life from hlife]
    cases hop : s.mapOp ids (.step r) with
    | none =>
      rw [hop] at hchannels
      exact h.of_same hstep hchannels hopen
    | some op =>
      rw [hop] at hchannels
      obtain ⟨q, hq, hop⟩ := Option.bind_eq_some_iff.1 hop
      obtain ⟨key, c, hplace, rfl⟩ := Request.mapOp_eq_some hop
      have hfetched := h.fetched r q hq
      simp only [Request.Fetched, hplace] at hfetched
      obtain ⟨rfl, hmapping, hclosed⟩ := hfetched
      have hclose : s.ClosedByRemove c := ⟨r, q, hq, hmapping, hclosed⟩
      exact h.of_erase hstep hchannels (fun c' _ => hopen c') fun _ => hclose.step hstep

theorem inv_reaches {ls : List (Label Channel)} (h : (machine ids).Reaches ls s) : Inv ids s :=
  Machine.invariant (M := machine ids) inv_initial (fun _ _ _ hs hstep => hs.step hstep) h

/-! ## The events of a channel -/

/-- The life of a channel tells which of its events have happened. -/
theorem life_reaches {ls : List (Label Channel)} (h : (machine ids).Reaches ls s) (c : Channel) :
    (s.life c = .fresh ↔ .channelActive c ∉ ls) ∧ (s.life c = .gone ↔ .channelInactive c ∈ ls) := by
  refine Machine.history_invariant (M := machine ids) (I := fun ls s =>
    (s.life c = .fresh ↔ .channelActive c ∉ ls) ∧ (s.life c = .gone ↔ .channelInactive c ∈ ls))
    ?_ ?_ h
  · simp [machine, initial]
  · intro ls s l t _ ih hstep
    have hlife := life_step hstep
    cases l with
    | channelActive c' | becomesInactive c' | channelInactive c' =>
      obtain ⟨hbefore, hlife⟩ := hlife
      by_cases hc : c = c'
      · subst hc
        simp only [hbefore, reduceCtorEq, true_iff, false_iff] at ih
        simp [hlife, ih]
      · simpa [hlife, hc] using ih
    | request r mapping | next r key | done r | step r =>
      simpa [show t.life = s.life from hlife] using ih

theorem open_iff {ls : List (Label Channel)} (h : (machine ids).Reaches ls s) (c : Channel) :
    s.Open c ↔ .channelActive c ∈ ls ∧ .channelInactive c ∉ ls := by
  obtain ⟨hfresh, hgone⟩ := life_reaches h c
  have hactive : .channelActive c ∈ ls ↔ s.life c ≠ .fresh := by rw [ne_eq, hfresh, not_not]
  rw [← hgone, hactive, Open]
  cases s.life c <;> simp

/-- **The registry invariant.** After every run: an entry of the map is a channel under its own id
that has fired `channelActive` and not `channelInactive`; and a channel that has fired
`channelActive` and not `channelInactive`, and is not in the map, has been closed by a `remove`
request. -/
theorem registry_invariant {ls : List (Label Channel)} (h : (machine ids).Reaches ls s) :
    (∀ key c, s.channels.lookup key = some c →
      key = ids.asLongText c ∧ .channelActive c ∈ ls ∧ .channelInactive c ∉ ls) ∧
    (∀ c, .channelActive c ∈ ls → .channelInactive c ∉ ls →
      s.channels.lookup (ids.asLongText c) ≠ some c →
      ∃ r q, s.requests r = some q ∧ q.mapping = .remove ∧ .closed c ∈ q.log) := by
  have hinv := inv_reaches h
  refine ⟨?_, ?_⟩
  · intro key c hc
    obtain ⟨hkey, hopen⟩ := hinv.entries key c hc
    exact ⟨hkey, (open_iff h c).1 hopen⟩
  · intro c hactive hinactive hne
    exact hinv.missing c ((open_iff h c).2 ⟨hactive, hinactive⟩) hne

end

/-- Two channels under their own names, of which a `remove` request takes one out while the other
goes away by itself. -/
theorem registry_invariant_run :
    let ids : ChannelIds String := ⟨id, Function.injective_id⟩
    let ls : List (Label String) := [.channelActive "a", .channelActive "b", .request 0 .remove,
      .next 0 "a", .step 0, .step 0, .step 0, .becomesInactive "b", .step 0, .channelInactive "b"]
    ∃ s, (machine ids).Reaches ls s ∧ s.channels.lookup "a" = none ∧
      ∃ r q, s.requests r = some q ∧ q.mapping = .remove ∧ .closed "a" ∈ q.log := by
  intro ids ls
  have hrun : ∃ s, (machine ids).Reaches ls s ∧ s.channels.lookup "a" = none := ⟨_, rfl, rfl⟩
  obtain ⟨s, hs, hlookup⟩ := hrun
  have hmissing := (registry_invariant hs).2 "a" (by decide) (by decide)
    (by simp [ids, hlookup])
  exact ⟨s, hs, hlookup, hmissing⟩

end Registry

end MmtxSample
