import Mathlib.Data.Nat.Notation

/-!
# Keep-alive with latency

The two parties of `KeepAlive` again, but what one says reaches the other after up to `lag` units.
The speaker speaks when it has neither said nor heard anything for `p` units, and what it says is
answered when it is heard. The watcher's clock runs out when it has heard nothing for `q`.

An answer holds the speaker back. The watcher has heard a word, the answer is on its way for up to
`lag`, the speaker then waits for `p`, and the next word is on its way for another `lag`. So the
watcher hears something at least every `p + 2 * lag`, and all is well as long as this is less than
`q` (`InTime`). The watcher may also say something unasked, if it does so early enough
(`InTime.push`).
-/

namespace KeepAlive

/-- The time, when each of the two clocks was last restarted, and when what is on its way to the
watcher and to the speaker was said. -/
structure Lagged where
  now : ℕ
  touched : ℕ
  heard : ℕ
  toWatcher : List ℕ
  toSpeaker : List ℕ

/-- The invariant: something said by the speaker will reach the watcher before its clock runs out,
be it on its way or not said yet, whatever the speaker may still hear before. -/
structure InTime (p q lag : ℕ) (c : Lagged) : Prop where
  touched_le : c.touched ≤ c.now
  heard_le : c.heard ≤ c.now
  now_le : c.now ≤ c.touched + p
  toWatcher : ∀ t ∈ c.toWatcher, t ≤ c.now ∧ c.now ≤ t + lag
  toSpeaker : ∀ t ∈ c.toSpeaker, c.now ≤ t + lag ∧ t + p + 2 * lag < c.heard + q
  ahead : (∃ t ∈ c.toWatcher, t + lag < c.heard + q) ∨ c.touched + p + lag < c.heard + q

namespace InTime

variable {p q lag : ℕ} {c : Lagged}

theorem initial (h : p + 2 * lag < q) : InTime p q lag ⟨0, 0, 0, [], []⟩ where
  touched_le := Nat.le_refl _
  heard_le := Nat.le_refl _
  now_le := Nat.zero_le _
  toWatcher := by simp
  toSpeaker := by simp
  ahead := Or.inr (by dsimp only; omega)

/-- The watcher's clock has not run out. -/
theorem not_due (h : InTime p q lag c) : c.now < c.heard + q := by
  have hnow := h.now_le
  rcases h.ahead with ⟨t, ht, hlt⟩ | hlt
  · have hle := (h.toWatcher t ht).2
    omega
  · omega

/-- Time passes, while nothing is late and the speaker's clock has not run out. -/
theorem wait (h : InTime p q lag c) {d : ℕ} (hnow : c.now + d ≤ c.touched + p)
    (hlag : ∀ t ∈ c.toWatcher ++ c.toSpeaker, c.now + d ≤ t + lag) :
    InTime p q lag { c with now := c.now + d } where
  touched_le := Nat.le_add_right_of_le h.touched_le
  heard_le := Nat.le_add_right_of_le h.heard_le
  now_le := hnow
  toWatcher t ht := ⟨Nat.le_add_right_of_le (h.toWatcher t ht).1,
    hlag t (List.mem_append_left _ ht)⟩
  toSpeaker t ht := ⟨hlag t (List.mem_append_right _ ht), (h.toSpeaker t ht).2⟩
  ahead := h.ahead

/-- The speaker says something, or nothing. -/
theorem speak (h : InTime p q lag c) (k : ℕ) :
    InTime p q lag { c with
      touched := if k = 0 then c.touched else c.now
      toWatcher := c.toWatcher ++ List.replicate k c.now } := by
  cases k with
  | zero => simpa using h
  | succ k =>
    rw [if_neg (Nat.succ_ne_zero k)]
    exact { h with
      touched_le := Nat.le_refl _
      now_le := Nat.le_add_right _ _
      toWatcher := by
        intro t ht
        rcases List.mem_append.1 ht with ht | ht
        · exact h.toWatcher t ht
        · obtain rfl := List.eq_of_mem_replicate ht
          exact ⟨Nat.le_refl _, Nat.le_add_right _ _⟩
      ahead := by
        left
        rcases h.ahead with ⟨t, ht, hlt⟩ | hlt
        · exact ⟨t, List.mem_append_left _ ht, hlt⟩
        · have hnow := h.now_le
          exact ⟨c.now, by simp, by dsimp only; omega⟩ }

/-- The speaker hears something. -/
theorem touch (h : InTime p q lag c) {rest : List ℕ} {t : ℕ} (ht : t ∈ c.toSpeaker)
    (hrest : rest ⊆ c.toSpeaker) :
    InTime p q lag { c with touched := c.now, toSpeaker := rest } where
  touched_le := Nat.le_refl _
  heard_le := h.heard_le
  now_le := Nat.le_add_right _ _
  toWatcher := h.toWatcher
  toSpeaker t ht := h.toSpeaker t (hrest ht)
  ahead := by
    refine h.ahead.imp_right fun _ => ?_
    obtain ⟨hle, hlt⟩ := h.toSpeaker t ht
    dsimp only
    omega

/-- The watcher hears something, and may answer. -/
theorem hear (h : InTime p q lag c) (hpq : p + 2 * lag < q) {rest : List ℕ}
    (hrest : rest ⊆ c.toWatcher) (k : ℕ) :
    InTime p q lag { c with
      heard := c.now, toWatcher := rest, toSpeaker := c.toSpeaker ++ List.replicate k c.now } where
  touched_le := h.touched_le
  heard_le := Nat.le_refl _
  now_le := h.now_le
  toWatcher t ht := h.toWatcher t (hrest ht)
  toSpeaker t ht := by
    have hheard := h.heard_le
    rcases List.mem_append.1 ht with ht | ht
    · obtain ⟨hle, hlt⟩ := h.toSpeaker t ht
      exact ⟨hle, by dsimp only; omega⟩
    · obtain rfl := List.eq_of_mem_replicate ht
      exact ⟨Nat.le_add_right _ _, by dsimp only; omega⟩
  ahead := by
    have htouched := h.touched_le
    right
    dsimp only
    omega

/-- The watcher says something early. -/
theorem push (h : InTime p q lag c) (k : ℕ) (hearly : c.now + p + 2 * lag < c.heard + q) :
    InTime p q lag { c with toSpeaker := c.toSpeaker ++ List.replicate k c.now } :=
  { h with
    toSpeaker := by
      intro t ht
      rcases List.mem_append.1 ht with ht | ht
      · exact h.toSpeaker t ht
      · obtain rfl := List.eq_of_mem_replicate ht
        exact ⟨Nat.le_add_right _ _, hearly⟩ }

end InTime

end KeepAlive
