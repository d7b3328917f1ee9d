import MmtxSample.Registry.Loop

/-!
# What the answer of a push means

A push that returns `true` has written its frame exactly once to every channel that was in the map
and active all the time, at most once to any other, each time after a check that found the channel
active, and has left the map alone (`push_all_true`). Other requests and the channels do what they
like meanwhile.

Two loop invariants. `Pushing` is what the request has done so far: nothing is written twice,
because a key comes once, and the channel of the key in hand has not been written yet. The other is
what it still owes a channel that stays (`Request.Owes`): its key has not been returned, or is in
hand, or the frame is written.
-/

namespace MmtxSample

open Java Netty CustomHeartbeatHandler TransitionSystem ConcurrentMap

variable {Channel : Type*}

namespace Request

/-- A push whose message fits writes the frame of the message. -/
theorem write_eq (q : Request Channel) (c : Channel) {msg : Bytes} (h : 5 + msg.length ≤ intMax) :
    q.write c (TestServerController.insertRowBuf msg) =
      q.record (.wrote c (frame CUSTOM_MSG msg.data)) .head := by
  have hbuf : TestServerController.insertRowBuf msg = .ok (.wrap (frame CUSTOM_MSG msg.data)) :=
    customBuf_eq h
  rw [hbuf]
  rfl

variable [DecidableEq Channel]

/-- What the request has written to the channel, in order. -/
def writes (q : Request Channel) (c : Channel) : List (List UInt8) :=
  q.log.filterMap fun
    | .wrote c' bytes => if c' = c then some bytes else none
    | _ => none

@[simp] theorem writes_checked (q : Request Channel) (c' : Channel) (b : Bool)
    (place : Place Channel) (c : Channel) :
    (q.record (.checked c' b) place).writes c = q.writes c := by
  simp [writes, record]

theorem writes_wrote (q : Request Channel) (c' : Channel) (bytes : List UInt8)
    (place : Place Channel) (c : Channel) :
    (q.record (.wrote c' bytes) place).writes c =
      q.writes c ++ if c' = c then [bytes] else [] := by
  simp only [writes, record, List.filterMap_append, List.filterMap_cons, List.filterMap_nil]
  split_ifs <;> rfl

theorem writes_observe (q : Request Channel) (op : Option (MapOp String Channel)) (c : Channel) :
    (q.observe op).writes c = q.writes c := by
  simp [writes]

/-- The loop invariant of `insertRow`. -/
structure Pushing (ids : ChannelIds Channel) (msg : Bytes) (q : Request Channel) : Prop where
  mapping : q.mapping = .insertRow msg
  key_returned : ∀ key, q.place.key = some key → key ∈ q.iter.returned
  writes : ∀ c, q.writes c = [] ∨ (q.writes c = [frame CUSTOM_MSG msg.data] ∧
    ids.asLongText c ∈ q.iter.returned ∧ q.place.key ≠ some (ids.asLongText c))
  checked : ∀ key c, q.place = .write key c → ∃ before, q.log = before ++ [.checked c true]
  wrote : ∀ before c bytes later, q.log = before ++ .wrote c bytes :: later →
    bytes = frame CUSTOM_MSG msg.data ∧ ∃ before', before = before' ++ [.checked c true]

variable {ids : ChannelIds Channel} {msg : Bytes} {q q' : Request Channel}

/-! ## One step of the loop -/

theorem pushing_start (channels : Contents String Channel) :
    (start channels (.insertRow msg)).Pushing ids msg where
  mapping := rfl
  key_returned key h := by cases h
  writes c := Or.inl rfl
  checked key c h := by cases h
  wrote before c bytes later h := by simp [start] at h

theorem Pushing.observe (h : q.Pushing ids msg) (op : Option (MapOp String Channel)) :
    (q.observe op).Pushing ids msg := by
  cases op with
  | none => exact h
  | some op =>
    have hreturned := WeakIterator.returned_observe q.iter op
    exact { h with
      key_returned := fun key hkey => hreturned ▸ h.key_returned key hkey
      writes := fun c => (h.writes c).imp_right fun ⟨hone, hmem, hkey⟩ =>
        ⟨hone, hreturned ▸ hmem, hkey⟩ }

theorem Pushing.next {key : String} (h : q.Pushing ids msg) (hnext : q.next key = some q') :
    q'.Pushing ids msg := by
  obtain ⟨hplace, it, hit, rfl⟩ := next_eq_some hnext
  obtain ⟨hnew, hreturned, -⟩ := WeakIterator.next_eq_some hit
  exact {
    mapping := h.mapping
    key_returned := by
      intro key' hkey
      obtain rfl : key = key' := Option.some.inj hkey
      exact hreturned ▸ Finset.mem_insert_self _ _
    writes := by
      intro c
      rcases h.writes c with hnil | ⟨hone, hmem, -⟩
      · exact Or.inl hnil
      · refine Or.inr ⟨hone, hreturned ▸ Finset.mem_insert_of_mem hmem, ?_⟩
        intro hkey
        obtain rfl : key = ids.asLongText c := Option.some.inj hkey
        exact hnew hmem
    checked := fun key c hplace => by cases hplace
    wrote := h.wrote }

/-- Moving on with the key in hand, or putting it down. -/
theorem Pushing.moveTo (h : q.Pushing ids msg) {place : Place Channel}
    (hkey : place.key = none ∨ place.key = q.place.key) (hwrite : ∀ key c, place ≠ .write key c) :
    (q.moveTo place).Pushing ids msg where
  mapping := h.mapping
  key_returned key hplace := by
    rcases hkey with hnone | hsame
    · cases hnone.symm.trans hplace
    · exact h.key_returned key (hsame ▸ hplace)
  writes c := (h.writes c).imp_right fun ⟨hone, hmem, hne⟩ => ⟨hone, hmem, by
    rcases hkey with hnone | hsame
    · exact fun hplace => by cases hnone.symm.trans hplace
    · exact hsame ▸ hne⟩
  checked key c hplace := absurd hplace (hwrite key c)
  wrote := h.wrote

theorem Pushing.done (h : q.Pushing ids msg) (hdone : q.done = some q') : q'.Pushing ids msg := by
  obtain ⟨-, -, rfl⟩ := done_eq_some hdone
  exact h.moveTo (Or.inl rfl) (by simp)

/-- Moving on after a check. -/
theorem Pushing.check (h : q.Pushing ids msg) {place : Place Channel} {c : Channel} {b : Bool}
    (hkey : place.key = none ∨ place.key = q.place.key)
    (hwrite : ∀ key c', place = .write key c' → c' = c ∧ b = true) :
    (q.record (.checked c b) place).Pushing ids msg where
  mapping := h.mapping
  key_returned key hplace := by
    rcases hkey with hnone | hsame
    · cases hnone.symm.trans hplace
    · exact h.key_returned key (hsame ▸ hplace)
  writes c' := by
    rw [writes_checked]
    refine (h.writes c').imp_right fun ⟨hone, hmem, hne⟩ => ⟨hone, hmem, ?_⟩
    rcases hkey with hnone | hsame
    · exact fun hplace => by cases hnone.symm.trans hplace
    · exact hsame ▸ hne
  checked key c' hplace := by
    obtain ⟨rfl, rfl⟩ := hwrite key c' hplace
    exact ⟨q.log, rfl⟩
  wrote before c' bytes later hlog := by
    rcases snoc_eq_append_cons.1 hlog with ⟨-, heq, -⟩ | ⟨later', -, hlog⟩
    · cases heq
    · exact h.wrote before c' bytes later' hlog

/-- Writing to the channel in hand, which has not been written before. -/
theorem Pushing.write (h : q.Pushing ids msg) (hint : 5 + msg.length ≤ intMax) {c : Channel}
    (hplace : q.place = .write (ids.asLongText c) c) :
    (q.write c (TestServerController.insertRowBuf msg)).Pushing ids msg := by
  have hkey : q.place.key = some (ids.asLongText c) := by rw [hplace]; rfl
  have hmem := h.key_returned _ hkey
  rw [write_eq q c hint]
  have hdown : ∀ key,
      (q.record (.wrote c (frame CUSTOM_MSG msg.data)) .head).place.key ≠ some key :=
    fun key h => by cases h
  exact {
    mapping := h.mapping
    key_returned := fun key hkey => by cases hkey
    writes := by
      intro c'
      rw [writes_wrote]
      by_cases hc : c = c'
      · subst hc
        rcases h.writes c with hnil | ⟨-, -, hne⟩
        · exact Or.inr ⟨by simp [hnil], hmem, hdown _⟩
        · exact absurd hkey hne
      · rw [if_neg hc, List.append_nil]
        exact (h.writes c').imp_right fun ⟨hone, hmem, _⟩ => ⟨hone, hmem, hdown _⟩
    checked := fun key c hplace => by cases hplace
    wrote := by
      intro before c' bytes later hlog
      rcases snoc_eq_append_cons.1 hlog with ⟨rfl, heq, -⟩ | ⟨later', -, hlog⟩
      · obtain ⟨rfl, rfl⟩ := Done.wrote.inj heq
        exact ⟨rfl, h.checked _ c' hplace⟩
      · exact h.wrote before c' bytes later' hlog }

theorem Pushing.body {channels : Contents String Channel} {isActive : Channel → Bool}
    (h : q.Pushing ids msg) (hfetched : q.Fetched ids) (hint : 5 + msg.length ≤ intMax)
    (hbody : Body channels isActive q q') : q'.Pushing ids msg := by
  cases hbody with
  | get hplace => exact h.moveTo (Or.inr (by rw [hplace]; rfl)) (by simp)
  | nullPointer hplace => exact h.moveTo (Or.inl rfl) (by simp)
  | active hplace hmapping hactive => exact h.check (Or.inr (by rw [hplace]; rfl)) (by simp)
  | activeRemove hplace hmapping hactive => cases h.mapping.symm.trans hmapping
  | inactive hplace hactive => exact h.check (Or.inl rfl) (by simp)
  | null hplace => exact h.moveTo (Or.inl rfl) (by simp)
  | notNull hplace hactive => exact h.check (Or.inr (by rw [hplace]; rfl)) (by simp)
  | @write key c msg' hplace hmapping =>
    obtain rfl := Mapping.insertRow.inj (h.mapping.symm.trans hmapping)
    simp only [Fetched, hplace] at hfetched
    exact h.write hint (hfetched ▸ hplace)
  | close hplace =>
    simp only [Fetched, hplace] at hfetched
    cases h.mapping.symm.trans hfetched.2
  | remove hplace =>
    simp only [Fetched, hplace] at hfetched
    cases h.mapping.symm.trans hfetched.2.1

/-- No channel is written twice. -/
theorem Pushing.length_writes_le (h : q.Pushing ids msg) (c : Channel) :
    (q.writes c).length ≤ 1 := by
  rcases h.writes c with hnil | ⟨hone, -⟩
  · rw [hnil]
    exact Nat.zero_le _
  · rw [hone]
    exact Nat.le_refl _

/-! ## A channel that stays -/

variable {c : Channel}

/-- A loop that ends has written the channel, if it owed it the frame. -/
theorem Owes.writes_of_done (h : q.Owes ids c (q.writes c = [frame CUSTOM_MSG msg.data]))
    (hdone : q.done = some q') : q'.writes c = [frame CUSTOM_MSG msg.data] := by
  have hone := h.met_of_done hdone
  obtain ⟨-, -, rfl⟩ := done_eq_some hdone
  exact hone

/-- A step of the body writes to the channel in hand alone. -/
theorem Body.writes {channels : Contents String Channel} {isActive : Channel → Bool}
    (hbody : Body channels isActive q q') (c : Channel) :
    q'.writes c = q.writes c ∨ ∃ key, q.place = .write key c := by
  cases hbody with
  | @write key c' msg hplace _ =>
    by_cases hc : c' = c
    · subst hc
      exact Or.inr ⟨key, hplace⟩
    · refine Or.inl ?_
      cases TestServerController.insertRowBuf msg with
      | ok buf => exact (writes_wrote q c' _ .head c).trans (by rw [if_neg hc, List.append_nil])
      | error ex => rfl
  | get | nullPointer | null => exact Or.inl rfl
  | active | activeRemove | inactive | notNull => exact Or.inl (writes_checked ..)
  | close | remove => exact Or.inl (by simp [Request.writes, record])

/-- The channel in hand has not been written yet. -/
theorem Pushing.writes_eq_nil (h : q.Pushing ids msg)
    (hplace : q.place = .write (ids.asLongText c) c) : q.writes c = [] := by
  rcases h.writes c with hnil | ⟨-, -, hne⟩
  · exact hnil
  · exact absurd (by rw [hplace]; rfl) hne

/-- What has been written once stays so. -/
theorem Pushing.writes_of_after {s : Registry Channel} {r : ℕ} {l : Registry.Label Channel}
    (h : q.Pushing ids msg) (hfetched : q.Fetched ids) (hafter : q.after s r l = some q')
    (hone : q.writes c = [frame CUSTOM_MSG msg.data]) :
    q'.writes c = [frame CUSTOM_MSG msg.data] := by
  rcases log_of_after hafter with hsame | ⟨-, hbody⟩
  · rwa [Request.writes, hsame]
  · rcases hbody.writes c with hsame | ⟨key, hplace⟩
    · exact hsame.trans hone
    · simp only [Fetched, hplace] at hfetched
      subst hfetched
      exact absurd (hone.symm.trans (h.writes_eq_nil hplace)) (List.cons_ne_nil _ _)

/-- The write to the channel. -/
theorem Pushing.writes_of_write {channels : Contents String Channel} {isActive : Channel → Bool}
    (h : q.Pushing ids msg) (hint : 5 + msg.length ≤ intMax)
    (hbody : Body channels isActive q q') (hplace : q.place = .write (ids.asLongText c) c) :
    q'.writes c = [frame CUSTOM_MSG msg.data] := by
  obtain ⟨msg', hmapping, hwrite⟩ := hbody.eq_write hplace
  obtain rfl := Mapping.insertRow.inj (h.mapping.symm.trans hmapping)
  rw [hwrite, write_eq q c hint, writes_wrote, if_pos rfl, h.writes_eq_nil hplace, List.nil_append]

end Request

namespace Registry

variable [DecidableEq Channel] {ids : ChannelIds Channel} {s : Registry Channel}

/-! ## Whole runs -/

/-- Both loop invariants hold of the request from its start on. -/
theorem pushing_reaches {pre mid : List (Label Channel)} {r : ℕ} {msg : Bytes}
    (hint : 5 + msg.length ≤ intMax)
    (h : (machine ids).Reaches (pre ++ .request r (.insertRow msg) :: mid) s) :
    ∃ q, s.requests r = some q ∧ q.Pushing ids msg ∧
      ∀ c, StaysActive ids pre (pre ++ .request r (.insertRow msg) :: mid) c →
        q.Owes ids c (q.writes c = [frame CUSTOM_MSG msg.data]) := by
  refine request_invariant (I := fun ls _ q => q.Pushing ids msg ∧
    ∀ c, StaysActive ids pre ls c →
      q.Owes ids c (q.writes c = [frame CUSTOM_MSG msg.data])) ?_ ?_ h
  · intro u v hu _
    refine ⟨Request.pushing_start _, ?_⟩
    intro c hstays
    have hlookup := (hstays pre u List.prefix_rfl (List.prefix_append _ _) hu).1
    exact Request.owes_start _ (Finmap.mem_iff.2 ⟨c, hlookup⟩)
  · rintro p u l v q q' hpre hu hstep hv hq hafter ⟨hpush, howes⟩
    have hfetched := (inv_reaches hu).fetched r q hq
    refine ⟨Request.Pushing.observe ?_ _, ?_⟩
    · rcases Request.after_cases hafter with ⟨-, rfl⟩ | ⟨key, -, hnext⟩ | ⟨-, hdone⟩ | ⟨-, hbody⟩
      · exact hpush
      · exact hpush.next hnext
      · exact hpush.done hdone
      · exact hpush.body hfetched hint (Request.body_of_step hbody)
    · intro c hstays
      have hbefore := howes c (hstays.of_prefix (List.prefix_append _ _))
      rw [Request.writes_observe]
      refine owes_step hpre hu hstep hv hstays hq hafter (hbefore.imp ?_) ?_
      · exact hpush.writes_of_after hfetched hafter
      · exact hpush.writes_of_write hint

/-- A push takes no step that changes the map. -/
theorem channels_of_pushing {u v : Registry Channel} {l : Label Channel} {r : ℕ}
    {q : Request Channel} {msg : Bytes} (hq : u.requests r = some q) (h : q.Pushing ids msg)
    (hfetched : q.Fetched ids) (hstep : step ids u l = some v) (hactor : l.actor = some r) :
    v.channels = u.channels := by
  have hop : u.mapOp ids l = none := by
    cases hop : u.mapOp ids l with
    | none => rfl
    | some op =>
      obtain ⟨q', key, c, hq', hplace, -⟩ := mapOp_of_actor hactor hop
      obtain rfl := Option.some.inj (hq.symm.trans hq')
      simp only [Request.Fetched, hplace] at hfetched
      cases h.mapping.symm.trans hfetched.2.1
  rw [channels_step hstep, hop]
  rfl

/-- From its start on, a push takes no step that changes the map. -/
theorem channels_of_run {pre mid p : List (Label Channel)} {l : Label Channel} {r : ℕ} {msg : Bytes}
    {u v : Registry Channel} (hint : 5 + msg.length ≤ intMax) (hpre : pre <+: p)
    (hp : p ++ [l] <+: pre ++ .request r (.insertRow msg) :: mid) (hu : (machine ids).Reaches p u)
    (hstep : step ids u l = some v) (hactor : l.actor = some r) : v.channels = u.channels := by
  obtain ⟨p', rfl⟩ := hpre
  rw [List.append_assoc, List.prefix_append_right_inj] at hp
  cases p' with
  | nil =>
    -- the step that makes the request
    obtain ⟨rfl, -⟩ := List.cons_prefix_cons.1 hp
    exact channels_step hstep
  | cons l' mid' =>
    obtain ⟨rfl, -⟩ := List.cons_prefix_cons.1 hp
    obtain ⟨q, hq, hpush, -⟩ := pushing_reaches hint hu
    exact channels_of_pushing hq hpush ((inv_reaches hu).fetched r q hq) hstep hactor

/-- **What `true` means.** When a push returns, (a) each channel that was in the map and active from
before its start to its end has been written the frame exactly once, (b) any channel at most once,
and only after a check, its last step before, that found the channel active, and (c) none of its
steps has changed the map. -/
theorem push_all_true {pre mid ls : List (Label Channel)} {r : ℕ} {msg : Bytes}
    (hls : ls = pre ++ .request r (.insertRow msg) :: (mid ++ [.done r]))
    (hint : 5 + msg.length ≤ intMax) (h : (machine ids).Reaches ls s) :
    ∃ q, s.requests r = some q ∧ q.place = .returned ∧
      (∀ c, StaysActive ids pre ls c → q.writes c = [frame CUSTOM_MSG msg.data]) ∧
      (∀ c, (q.writes c).length ≤ 1 ∧
        ∀ before bytes later, q.log = before ++ .wrote c bytes :: later →
          bytes = frame CUSTOM_MSG msg.data ∧
          ∃ before', before = before' ++ [.checked c true] ∧ CheckedAt ids ls r before' c true) ∧
      (∀ p l u v, pre <+: p → p ++ [l] <+: ls → (machine ids).Reaches p u →
        step ids u l = some v → l.actor = some r → v.channels = u.channels) := by
  subst hls
  have hprefix : pre ++ .request r (.insertRow msg) :: mid <+:
      pre ++ .request r (.insertRow msg) :: (mid ++ [.done r]) := ⟨[.done r], by simp⟩
  have hlast : (machine ids).Reaches
      ((pre ++ .request r (.insertRow msg) :: mid) ++ [.done r]) s := by
    simpa using h
  obtain ⟨u, q, q', hu, hq, hdone, hq', hreturned⟩ := returned_of_done hlast
  obtain ⟨q₁, hq₁, -, howes⟩ := pushing_reaches hint hu
  obtain rfl := Option.some.inj (hq.symm.trans hq₁)
  obtain ⟨q₂, hq₂, hpush, -⟩ := pushing_reaches hint h
  obtain rfl := Option.some.inj (hq'.symm.trans hq₂)
  refine ⟨q', hq', hreturned, ?_, ?_, ?_⟩
  · intro c hstays
    exact (howes c (hstays.of_prefix hprefix)).writes_of_done hdone
  · intro c
    refine ⟨hpush.length_writes_le c, ?_⟩
    intro before bytes later hlog
    obtain ⟨hbytes, before', rfl⟩ := hpush.wrote before c bytes later hlog
    exact ⟨hbytes, before', rfl, checked_reaches h r q' hq' before' c true
      ⟨.wrote c bytes :: later, hlog.symm⟩⟩
  · intro p l u v hpre hp hu hstep hactor
    exact channels_of_run hint hpre hp hu hstep hactor

/-- A push to three channels, of which one becomes inactive between the two checks of its visit and
gets nothing, while a fourth one comes and is not returned by the iterator. The two others stay, and
get the frame once. -/
theorem push_all_true_run :
    let ids : ChannelIds String := ⟨id, Function.injective_id⟩
    let pre : List (Label String) := [.channelActive "a", .channelActive "b", .channelActive "c"]
    let mid : List (Label String) := [.next 0 "b", .step 0, .step 0, .channelActive "d", .step 0,
      .step 0, .next 0 "c", .step 0, .step 0, .becomesInactive "c", .step 0, .channelInactive "c",
      .next 0 "a", .step 0, .step 0, .step 0, .step 0]
    ∃ s q, (machine ids).Reaches
        (pre ++ .request 0 (.insertRow ⟨[97], by decide⟩) :: (mid ++ [.done 0])) s ∧
      s.requests 0 = some q ∧ q.place = .returned ∧
      q.writes "a" = [frame CUSTOM_MSG [97]] ∧ q.writes "b" = [frame CUSTOM_MSG [97]] ∧
      ∀ c, (q.writes c).length ≤ 1 := by
  intro ids pre mid
  have hpre : ∃ u, (machine ids).Reaches pre u ∧ u.life "a" ≠ .fresh ∧ u.life "b" ≠ .fresh :=
    ⟨_, rfl, by decide, by decide⟩
  have hrun : ∃ s, (machine ids).Reaches
      (pre ++ .request 0 (.insertRow ⟨[97], by decide⟩) :: (mid ++ [.done 0])) s ∧
      (s.channels.lookup "a" = some "a" ∧ s.isActive "a" = true) ∧
      (s.channels.lookup "b" = some "b" ∧ s.isActive "b" = true) :=
    ⟨_, rfl, ⟨rfl, rfl⟩, ⟨rfl, rfl⟩⟩
  obtain ⟨u, hu, ha, hb⟩ := hpre
  obtain ⟨s, hs, ⟨hlookupA, hactiveA⟩, ⟨hlookupB, hactiveB⟩⟩ := hrun
  obtain ⟨q, hq, hplace, hstayed, hwrites, -⟩ := push_all_true rfl (by decide) hs
  exact ⟨s, q, hs, hq, hplace, hstayed "a" (staysActive_of_ends hu hs ha hlookupA hactiveA),
    hstayed "b" (staysActive_of_ends hu hs hb hlookupB hactiveB), fun c => (hwrites c).1⟩

end Registry

end MmtxSample
