import MmtxSample.Registry.Loop

/-!
# What the answer of a removal means

A removal that returns `true` leaves no channel in the map and active that was in the map when its
loop began; it takes no entry out of the map whose channel it has not closed before; and it has
closed a channel if and only if it has removed its id (`remove_all_true`).

The loop deletes from the map whose keys it iterates, and its own `close` makes the event loop
delete from it too. Neither can make it skip a channel that stays: the iterator owes the key of such
a channel (`Request.Owes`), and the visit of the channel ends only by taking it out, after which it
has not stayed. `Removing` is what the request has done so far: it closes a channel right after the
check that found it active, and removes a key right after it has closed the channel.
-/

namespace MmtxSample

open TransitionSystem ConcurrentMap

variable {Channel : Type*}

/-- What a removal has done right before it closes a channel or removes a key. -/
def Done.Follows (ids : ChannelIds Channel) (before : List (Done Channel)) : Done Channel → Prop
  | closed c => ∃ before', before = before' ++ [.checked c true]
  | removed key => ∃ before' c, before = before' ++ [.closed c] ∧ key = ids.asLongText c
  | _ => True

namespace Request

/-- The loop invariant of `remove`. -/
structure Removing (ids : ChannelIds Channel) (q : Request Channel) : Prop where
  mapping : q.mapping = .remove
  closing : ∀ key c, q.place = .close key c → ∃ before, q.log = before ++ [.checked c true]
  removing : ∀ key c, q.place = .remove key c → ∃ before, q.log = before ++ [.closed c]
  order : ∀ before done later, q.log = before ++ done :: later → done.Follows ids before
  closed : ∀ c, .closed c ∈ q.log →
    .removed (ids.asLongText c) ∈ q.log ∨ q.place = .remove (ids.asLongText c) c

variable {ids : ChannelIds Channel} {q q' : Request Channel}

/-! ## One step of the loop -/

theorem removing_start (channels : Contents String Channel) :
    (start channels .remove).Removing ids where
  mapping := rfl
  closing key c h := by cases h
  removing key c h := by cases h
  order before done later h := by simp [start] at h
  closed c h := by cases h

theorem Removing.observe (h : q.Removing ids) (op : Option (MapOp String Channel)) :
    (q.observe op).Removing ids := by
  cases op <;> exact ⟨h.mapping, h.closing, h.removing, h.order, h.closed⟩

/-- The request goes on with another iterator to a place where nothing is closed or removed. -/
theorem Removing.goOn (h : q.Removing ids) (hplace : ∀ key c, q.place ≠ .remove key c)
    {iter : WeakIterator String} {place : Place Channel} (hclose : ∀ key c, place ≠ .close key c)
    (hremove : ∀ key c, place ≠ .remove key c) :
    Removing ids { q with iter := iter, place := place } where
  mapping := h.mapping
  closing key c hplace := absurd hplace (hclose key c)
  removing key c hplace := absurd hplace (hremove key c)
  order := h.order
  closed c hlog := Or.inl ((h.closed c hlog).resolve_right (hplace _ c))

theorem Removing.next {key : String} (h : q.Removing ids) (hnext : q.next key = some q') :
    q'.Removing ids := by
  obtain ⟨hplace, it, -, rfl⟩ := next_eq_some hnext
  exact h.goOn (by simp [hplace]) (by simp) (by simp)

theorem Removing.done (h : q.Removing ids) (hdone : q.done = some q') : q'.Removing ids := by
  obtain ⟨hplace, -, rfl⟩ := done_eq_some hdone
  exact h.goOn (by simp [hplace]) (by simp) (by simp)

/-- The request moves on after something that may follow what it has done. -/
theorem Removing.record (h : q.Removing ids) {done : Done Channel} {place : Place Channel}
    (hdone : done.Follows ids q.log)
    (hclose : ∀ key c, place = .close key c → done = .checked c true)
    (hremove : ∀ key c, place = .remove key c → done = .closed c)
    (hclosed : ∀ c, .closed c ∈ q.log ++ [done] →
      .removed (ids.asLongText c) ∈ q.log ++ [done] ∨ place = .remove (ids.asLongText c) c) :
    (q.record done place).Removing ids where
  mapping := h.mapping
  closing key c hplace := ⟨q.log, by rw [← hclose key c hplace]; rfl⟩
  removing key c hplace := ⟨q.log, by rw [← hremove key c hplace]; rfl⟩
  order before done' later hlog := by
    rcases snoc_eq_append_cons.1 hlog with ⟨rfl, rfl, -⟩ | ⟨later', -, hlog⟩
    · exact hdone
    · exact h.order before done' later' hlog
  closed := hclosed

/-- A check. -/
theorem Removing.check (h : q.Removing ids) (hplace : ∀ key c, q.place ≠ .remove key c)
    {c : Channel} {b : Bool} {place : Place Channel}
    (hclose : ∀ key c', place = .close key c' → c' = c ∧ b = true)
    (hremove : ∀ key c', place ≠ .remove key c') :
    (q.record (.checked c b) place).Removing ids := by
  refine h.record trivial ?_ (fun key c' hplace => absurd hplace (hremove key c')) ?_
  · intro key c' hplace
    obtain ⟨rfl, rfl⟩ := hclose key c' hplace
    rfl
  · intro c' hlog
    have hold : .closed c' ∈ q.log := by simpa using hlog
    exact Or.inl (List.mem_append_left _ ((h.closed c' hold).resolve_right (hplace _ c')))

theorem Removing.body {channels : Contents String Channel} {isActive : Channel → Bool}
    (h : q.Removing ids) (hfetched : q.Fetched ids) (hbody : Body channels isActive q q') :
    q'.Removing ids := by
  cases hbody with
  | get hplace | nullPointer hplace | null hplace =>
    exact h.goOn (by simp [hplace]) (by simp) (by simp)
  | active hplace hmapping => cases h.mapping.symm.trans hmapping
  | activeRemove hplace | notNull hplace => exact h.check (by simp [hplace]) (by simp) (by simp)
  | inactive hplace =>
    refine h.check ?_ (by simp) (by simp)
    rcases hplace with hplace | hplace <;> simp [hplace]
  | write hplace hmapping => cases h.mapping.symm.trans hmapping
  | @close key c hplace =>
    simp only [Fetched, hplace] at hfetched
    obtain ⟨rfl, -⟩ := hfetched
    refine h.record (h.closing _ c hplace) (by simp) (by simp) ?_
    intro c' hlog
    rcases List.mem_append.1 hlog with hold | hnew
    · rcases h.closed c' hold with hremoved | hplace'
      · exact Or.inl (List.mem_append_left _ hremoved)
      · cases hplace.symm.trans hplace'
    · obtain rfl := Done.closed.inj (List.mem_singleton.1 hnew)
      exact Or.inr rfl
  | @remove key c hplace =>
    simp only [Fetched, hplace] at hfetched
    obtain ⟨rfl, -, -⟩ := hfetched
    obtain ⟨before, hlast⟩ := h.removing _ c hplace
    refine h.record ⟨before, c, hlast, rfl⟩ (by simp) (by simp) ?_
    intro c' hlog
    have hold : .closed c' ∈ q.log := by simpa using hlog
    rcases h.closed c' hold with hremoved | hplace'
    · exact Or.inl (List.mem_append_left _ hremoved)
    · obtain ⟨hkey, -⟩ := Place.remove.inj (hplace.symm.trans hplace')
      exact Or.inl (List.mem_append_right _ (List.mem_singleton.2 (congrArg _ hkey.symm)))

theorem removed_of_write {c : Channel} {buf : Except Java.Exception Netty.ByteBuf} {key : String}
    (hlog : .removed key ∈ (q.write c buf).log) : .removed key ∈ q.log := by
  cases buf with
  | ok buf => simpa [write, Request.record] using hlog
  | error ex => exact hlog

/-- A step of the body removes the key in hand alone. -/
theorem Body.removed {channels : Contents String Channel} {isActive : Channel → Bool} {key : String}
    (hbody : Body channels isActive q q') (hlog : .removed key ∈ q'.log) :
    .removed key ∈ q.log ∨ ∃ c, q.place = .remove key c := by
  cases hbody with
  | get | nullPointer | null => exact Or.inl hlog
  | active | activeRemove | inactive | notNull | close =>
    exact Or.inl (by simpa [Request.record] using hlog)
  | write => exact Or.inl (removed_of_write hlog)
  | @remove key' c hplace =>
    rcases List.mem_append.1 hlog with hold | hnew
    · exact Or.inl hold
    · obtain rfl := Done.removed.inj (List.mem_singleton.1 hnew)
      exact Or.inr ⟨c, hplace⟩

/-- What has been removed has been closed. -/
theorem Removing.closed_of_removed (h : q.Removing ids) {c : Channel}
    (hlog : .removed (ids.asLongText c) ∈ q.log) : .closed c ∈ q.log := by
  obtain ⟨before, later, hlog⟩ := List.append_of_mem hlog
  obtain ⟨before', c', rfl, hid⟩ := h.order before _ later hlog
  obtain rfl := ids.unique hid
  rw [hlog]
  simp

end Request

namespace Registry

variable [DecidableEq Channel] {ids : ChannelIds Channel} {s u v : Registry Channel}
  {l : Label Channel} {r : ℕ}

/-! ## What a request takes out of the map -/

/-- A request closes a channel before it takes its entry out of the map. -/
theorem closed_of_taken {ls : List (Label Channel)} {key : String} {c : Channel}
    (hu : (machine ids).Reaches ls u) (hstep : step ids u l = some v) (hactor : l.actor = some r)
    (hbefore : u.channels.lookup key = some c) (hafter : v.channels.lookup key ≠ some c) :
    ∃ q, u.requests r = some q ∧ .closed c ∈ q.log := by
  have hinv := inv_reaches hu
  rw [channels_step hstep] at hafter
  cases hop : u.mapOp ids l with
  | none =>
    rw [hop] at hafter
    exact absurd hbefore hafter
  | some op =>
    obtain ⟨q, key', c', hq, hplace, rfl⟩ := mapOp_of_actor hactor hop
    have hfetched := hinv.fetched r q hq
    simp only [Request.Fetched, hplace] at hfetched
    obtain ⟨rfl, -, hclosed⟩ := hfetched
    have hafter : (u.channels.erase (ids.asLongText c')).lookup key ≠ some c := by
      rwa [hop] at hafter
    have hkey : key = ids.asLongText c' := by
      by_contra hne
      exact hafter ((Finmap.lookup_erase_ne hne).trans hbefore)
    obtain rfl := ids.unique ((hinv.entries key c hbefore).1.symm.trans hkey)
    exact ⟨q, hq, hclosed⟩

/-! ## Whole runs -/

/-- A channel that the request has closed has been active. -/
theorem life_of_closed {ls : List (Label Channel)} {q : Request Channel} {c : Channel}
    (h : (machine ids).Reaches ls s) (hq : s.requests r = some q) (hremoving : q.Removing ids)
    (hlog : .closed c ∈ q.log) : s.life c ≠ .fresh := by
  obtain ⟨before, later, hlog⟩ := List.append_of_mem hlog
  obtain ⟨before', rfl⟩ := hremoving.order before _ later hlog
  obtain ⟨p, u, -, hp, hu, -, -, hactive⟩ :=
    checked_reaches h r q hq before' c true ⟨.closed c :: later, hlog.symm⟩
  have hfresh : u.life c ≠ .fresh := by
    rw [of_decide_eq_true hactive]
    simp
  exact life_ne_fresh_later ((List.prefix_append _ _).trans hp) hu h hfresh

/-- What the request has removed does not come back. -/
theorem gone_step {ls : List (Label Channel)} {q q' : Request Channel}
    (hu : (machine ids).Reaches ls u) (hstep : step ids u l = some v) (hq : u.requests r = some q)
    (hafter : q.after u r l = some q') (hremoving : q.Removing ids)
    (h : ∀ c, .removed (ids.asLongText c) ∈ q.log → u.channels.lookup (ids.asLongText c) ≠ some c) :
    ∀ c, .removed (ids.asLongText c) ∈ q'.log → v.channels.lookup (ids.asLongText c) ≠ some c := by
  intro c hlog hlookup
  have hold : .removed (ids.asLongText c) ∉ q.log := by
    intro hold
    have hlife := life_of_closed hu hq hremoving (hremoving.closed_of_removed hold)
    exact h c hold (lookup_of_step hlife hstep hlookup)
  rcases Request.log_of_after hafter with hsame | ⟨rfl, hbody⟩
  · exact hold (hsame ▸ hlog)
  · rcases hbody.removed hlog with hlog | ⟨c', hplace⟩
    · exact hold hlog
    · cases (lookup_of_remove hstep hq hplace).symm.trans hlookup

/-- What holds of a removal from its start on. -/
theorem removing_reaches {pre mid : List (Label Channel)}
    (h : (machine ids).Reaches (pre ++ .request r .remove :: mid) s) :
    ∃ q, s.requests r = some q ∧ q.Removing ids ∧
      (∀ c, StaysActive ids pre (pre ++ .request r .remove :: mid) c → q.Owes ids c False) ∧
      ∀ c, .removed (ids.asLongText c) ∈ q.log →
        s.channels.lookup (ids.asLongText c) ≠ some c := by
  refine request_invariant (I := fun ls s q => q.Removing ids ∧
    (∀ c, StaysActive ids pre ls c → q.Owes ids c False) ∧
    ∀ c, .removed (ids.asLongText c) ∈ q.log → s.channels.lookup (ids.asLongText c) ≠ some c)
    ?_ ?_ h
  · intro u v hu _
    refine ⟨Request.removing_start _, ?_, fun c hlog => by cases hlog⟩
    intro c hstays
    have hlookup := (hstays pre u List.prefix_rfl (List.prefix_append _ _) hu).1
    exact Request.owes_start _ (Finmap.mem_iff.2 ⟨c, hlookup⟩)
  · rintro p u l v q q' hpre hu hstep hv hq hafter ⟨hremoving, howes, hgone⟩
    have hfetched := (inv_reaches hu).fetched r q hq
    refine ⟨Request.Removing.observe ?_ _, ?_, ?_⟩
    · rcases Request.after_cases hafter with ⟨-, rfl⟩ | ⟨key, -, hnext⟩ | ⟨-, hdone⟩ | ⟨-, hbody⟩
      · exact hremoving
      · exact hremoving.next hnext
      · exact hremoving.done hdone
      · exact hremoving.body hfetched (Request.body_of_step hbody)
    · intro c hstays
      have howe := howes c (hstays.of_prefix (List.prefix_append _ _))
      refine owes_step hpre hu hstep hv hstays hq hafter howe ?_
      intro hbody hplace
      obtain ⟨msg, hmapping, -⟩ := hbody.eq_write hplace
      cases hremoving.mapping.symm.trans hmapping
    · rw [Request.log_observe]
      exact gone_step hu hstep hq hafter hremoving hgone

/-- **What `true` means.** When a removal returns, (a) no channel that was in the map before its
start is in the map and active; (b) each entry that a step of the removal has taken out of the map
is a channel it had closed before, and each `remove` it has called came right after the `close` of
the channel whose id it removed; and (c) it has closed a channel, whether this came before or
meanwhile, if and only if it has removed its id, and then the channel is not in the map. -/
theorem remove_all_true {pre mid ls : List (Label Channel)}
    (hls : ls = pre ++ .request r .remove :: (mid ++ [.done r]))
    (h : (machine ids).Reaches ls s) :
    ∃ q, s.requests r = some q ∧ q.place = .returned ∧
      (∀ u key c, (machine ids).Reaches pre u → u.channels.lookup key = some c →
        ¬ ((∃ key', s.channels.lookup key' = some c) ∧ s.isActive c = true)) ∧
      (∀ p l u v key c, p ++ [l] <+: ls → (machine ids).Reaches p u → step ids u l = some v →
        l.actor = some r → u.channels.lookup key = some c → v.channels.lookup key ≠ some c →
        ∃ q, u.requests r = some q ∧ .closed c ∈ q.log) ∧
      (∀ before key later, q.log = before ++ .removed key :: later →
        ∃ before' c, before = before' ++ [.closed c] ∧ key = ids.asLongText c) ∧
      ∀ c, (.closed c ∈ q.log ↔ .removed (ids.asLongText c) ∈ q.log) ∧
        (.closed c ∈ q.log → ∀ key, s.channels.lookup key ≠ some c) := by
  subst hls
  have hprefix : pre ++ .request r .remove :: mid <+:
      pre ++ .request r .remove :: (mid ++ [.done r]) := ⟨[.done r], by simp⟩
  have hentries := (inv_reaches h).entries
  have hlast : (machine ids).Reaches ((pre ++ .request r .remove :: mid) ++ [.done r]) s := by
    simpa using h
  obtain ⟨u, q, q', hu, hq, hdone, hq', hreturned⟩ := returned_of_done hlast
  obtain ⟨q₁, hq₁, -, howes, -⟩ := removing_reaches hu
  obtain rfl := Option.some.inj (hq.symm.trans hq₁)
  obtain ⟨q₂, hq₂, hremoving, -, hgone⟩ := removing_reaches h
  obtain rfl := Option.some.inj (hq'.symm.trans hq₂)
  have hremoved : ∀ c, .closed c ∈ q'.log → .removed (ids.asLongText c) ∈ q'.log := by
    intro c hlog
    refine (hremoving.closed c hlog).resolve_right ?_
    rw [hreturned]
    simp
  refine ⟨q', hq', hreturned, ?_, ?_, ?_, ?_⟩
  · rintro u₀ key c hu₀ hlookup₀ ⟨⟨key', hlookup⟩, hactive⟩
    have hfresh : u₀.life c ≠ .fresh := by
      rcases ((inv_reaches hu₀).entries key c hlookup₀).2 with hlife | hlife <;> simp [hlife]
    obtain rfl := (hentries key' c hlookup).1
    have hstays := staysActive_of_ends hu₀ h hfresh hlookup hactive
    exact (howes c (hstays.of_prefix hprefix)).met_of_done hdone
  · intro p l u v key c _ hu hstep hactor hbefore hafter
    exact closed_of_taken hu hstep hactor hbefore hafter
  · intro before key later hlog
    exact hremoving.order before (.removed key) later hlog
  · intro c
    refine ⟨⟨hremoved c, hremoving.closed_of_removed⟩, ?_⟩
    intro hlog key hlookup
    obtain rfl := (hentries key c hlookup).1
    exact hgone c (hremoved c hlog) hlookup

/-- A removal of two channels, one of which goes away by itself after its `close`, while a third one
comes and stays. -/
theorem remove_all_true_run :
    let ids : ChannelIds String := ⟨id, Function.injective_id⟩
    let pre : List (Label String) := [.channelActive "a", .channelActive "b"]
    let mid : List (Label String) := [.next 0 "b", .step 0, .step 0, .step 0, .becomesInactive "b",
      .channelInactive "b", .channelActive "c", .step 0, .next 0 "a", .step 0, .step 0, .step 0,
      .step 0]
    ∃ s q, (machine ids).Reaches (pre ++ .request 0 .remove :: (mid ++ [.done 0])) s ∧
      s.requests 0 = some q ∧ q.place = .returned ∧
      ∀ c, .closed c ∈ q.log ↔ .removed c ∈ q.log := by
  intro ids pre mid
  have hrun : ∃ s, (machine ids).Reaches
      (pre ++ .request 0 .remove :: (mid ++ [.done 0])) s := ⟨_, rfl⟩
  obtain ⟨s, hs⟩ := hrun
  obtain ⟨q, hq, hplace, -, -, -, hclosed⟩ := remove_all_true rfl hs
  exact ⟨s, q, hs, hq, hplace, fun c => (hclosed c).1⟩

/-! ## What a removal leaves -/

/-- A channel that was there when a removal began has not stayed when it has returned. -/
theorem not_staysActive_of_returned {pre mid post : List (Label Channel)} {c : Channel}
    (h : (machine ids).Reaches (pre ++ .request r .remove :: (mid ++ .done r :: post)) s) :
    ¬ StaysActive ids pre (pre ++ .request r .remove :: (mid ++ .done r :: post)) c := by
  intro hstays
  have hsplit : pre ++ .request r .remove :: (mid ++ .done r :: post) =
      ((pre ++ .request r .remove :: mid) ++ [.done r]) ++ post := by simp
  rw [hsplit] at h hstays
  obtain ⟨v, hv, -⟩ := Machine.reaches_append.1 h
  obtain ⟨u, q, q', hu, hq, hdone, -⟩ := returned_of_done hv
  obtain ⟨q₁, hq₁, -, howes, -⟩ := removing_reaches hu
  obtain rfl := Option.some.inj (hq.symm.trans hq₁)
  have hprefix : pre ++ .request r .remove :: mid <+:
      ((pre ++ .request r .remove :: mid) ++ [.done r]) ++ post := ⟨[.done r] ++ post, by simp⟩
  exact (howes c (hstays.of_prefix hprefix)).met_of_done hdone

theorem life_ne_fresh_of_mem {pre ls : List (Label Channel)} {c : Channel} (hpre : pre <+: ls)
    (h : (machine ids).Reaches ls s) (hc : .channelActive c ∈ pre) : s.life c ≠ .fresh := by
  rw [ne_eq, (life_reaches h c).1, not_not]
  exact hpre.subset hc

/-- After a removal, a channel that was there when it began is not both in the map and active. -/
theorem not_active_of_lookup {pre mid post : List (Label Channel)} {key : String} {c : Channel}
    (h : (machine ids).Reaches (pre ++ .request r .remove :: (mid ++ .done r :: post)) s)
    (hlookup : s.channels.lookup key = some c) (hc : .channelActive c ∈ pre) :
    s.isActive c = false := by
  rw [← Bool.not_eq_true]
  intro hactive
  obtain ⟨rfl, -⟩ := (inv_reaches h).entries key c hlookup
  obtain ⟨u, hu⟩ := h.of_prefix (List.prefix_append _ _)
  exact not_staysActive_of_returned h
    (staysActive_of_ends hu h (life_ne_fresh_of_mem List.prefix_rfl hu hc) hlookup hactive)

/-- **What a removal leaves.** In every state from the return of a removal on, each channel in the
map has fired `channelActive` since the removal began, or is active no longer and about to fire
`channelInactive`. So when no channel has fired `channelActive` since and none is about to fire
`channelInactive`, the map is empty. -/
theorem remove_all_leaves {pre mid post ls : List (Label Channel)}
    (hls : ls = pre ++ .request r .remove :: (mid ++ .done r :: post))
    (h : (machine ids).Reaches ls s) :
    (∀ key c, s.channels.lookup key = some c →
      .channelActive c ∈ mid ++ post ∨ s.life c = .inactive) ∧
    ((∀ c, .channelActive c ∉ mid ++ post) → (∀ c, s.life c ≠ .inactive) → s.channels = ∅) := by
  subst hls
  have hleft : ∀ key c, s.channels.lookup key = some c →
      .channelActive c ∈ mid ++ post ∨ s.life c = .inactive := by
    intro key c hlookup
    rcases ((inv_reaches h).entries key c hlookup).2 with hactive | hinactive
    · refine Or.inl ?_
      by_contra hnew
      have hfresh : s.life c ≠ .fresh := by
        rw [hactive]
        simp
      have hc : .channelActive c ∈ pre := by
        rw [ne_eq, (life_reaches h c).1, not_not] at hfresh
        simpa [List.mem_append.not.1 hnew] using hfresh
      have hinactive := not_active_of_lookup h hlookup hc
      simp [isActive, hactive] at hinactive
    · exact Or.inr hinactive
  refine ⟨hleft, ?_⟩
  intro hnone hsettled
  refine Finmap.ext_lookup ?_
  intro key
  rw [Finmap.lookup_empty]
  cases hlookup : s.channels.lookup key with
  | none => rfl
  | some c => exact absurd ((hleft key c hlookup).resolve_left (hnone c)) (hsettled c)

/-- A removal of two channels, one of which goes away by itself. The other one is closed by the
removal and goes after it. -/
theorem remove_all_leaves_run :
    let ids : ChannelIds String := ⟨id, Function.injective_id⟩
    let pre : List (Label String) := [.channelActive "a", .channelActive "b"]
    let mid : List (Label String) := [.next 0 "b", .step 0, .becomesInactive "b", .step 0,
      .next 0 "a", .step 0, .step 0, .step 0, .step 0]
    let post : List (Label String) := [.channelInactive "b", .becomesInactive "a",
      .channelInactive "a"]
    ∃ s, (machine ids).Reaches (pre ++ .request 0 .remove :: (mid ++ .done 0 :: post)) s ∧
      ∀ key c, s.channels.lookup key = some c →
        .channelActive c ∈ mid ++ post ∨ s.life c = .inactive := by
  intro ids pre mid post
  have hrun : ∃ s, (machine ids).Reaches
      (pre ++ .request 0 .remove :: (mid ++ .done 0 :: post)) s := ⟨_, rfl⟩
  obtain ⟨s, hs⟩ := hrun
  exact ⟨s, hs, (remove_all_leaves rfl hs).1⟩

end Registry

end MmtxSample
