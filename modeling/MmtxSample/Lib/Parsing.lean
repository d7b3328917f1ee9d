import MmtxSample.Lib.Framing

/-!
# The meaning of a whole stream

A cutter that never changes its mind (`Stable`) gives every stream one meaning that does not depend
on how the stream arrives: cut from the front, skip what fails, go on until the cutter waits.
`scan` computes it: the frames and the failures met on the way, in order, and the reader that is
left at the end.

A `Reader` stops cutting for the rest of a read when the cutter fails, so at a given moment it may
lag behind: frames that have arrived completely are still held.

* `scan_feed`: whatever has been read in whatever pieces, what the reader has made of it followed by
  the scan of what it holds is the scan of the stream.
* `scan_reader`: after a read that does not fail there is nothing left to make of what is held.
-/

namespace Framing

variable {α β ε : Type*}

/-- One thing a stream contains. -/
inductive Item (β ε : Type*)
  | frame (b : β)
  | failure (error : ε)
  deriving DecidableEq, Repr

/-- The frames among items. -/
def frames (is : List (Item β ε)) : List β :=
  is.filterMap fun
    | .frame b => some b
    | .failure _ => none

/-- The failures among items. -/
def failures (is : List (Item β ε)) : List ε :=
  is.filterMap fun
    | .frame _ => none
    | .failure error => some error

@[simp] theorem frames_nil : frames ([] : List (Item β ε)) = [] := rfl

@[simp] theorem failures_nil : failures ([] : List (Item β ε)) = [] := rfl

@[simp] theorem frames_append (is js : List (Item β ε)) :
    frames (is ++ js) = frames is ++ frames js := List.filterMap_append

@[simp] theorem failures_append (is js : List (Item β ε)) :
    failures (is ++ js) = failures is ++ failures js := List.filterMap_append

@[simp] theorem frames_frame (b : β) (is : List (Item β ε)) :
    frames (.frame b :: is) = b :: frames is := rfl

@[simp] theorem frames_failure (e : ε) (is : List (Item β ε)) :
    frames (.failure e :: is) = frames is := rfl

@[simp] theorem failures_frame (b : β) (is : List (Item β ε)) :
    failures (.frame b :: is) = failures is := rfl

@[simp] theorem failures_failure (e : ε) (is : List (Item β ε)) :
    failures (.failure e :: is) = e :: failures is := rfl

/-- What the cutter says of some elements it says whatever follows them, and it uses some up. -/
structure Stable (cut : List α → Cut α β ε) : Prop where
  nil : cut [] = .wait
  emit : ∀ {buf b rest}, cut buf = .emit b rest →
    rest.length < buf.length ∧ ∀ later, cut (buf ++ later) = .emit b (rest ++ later)
  fail : ∀ {buf e skip}, cut buf = .fail e skip →
    0 < skip ∧ ∀ later, cut (buf ++ later) = .fail e skip

variable (cut : List α → Cut α β ε)

/-- Items found earlier come first. -/
def prepend (is : List (Item β ε)) (scanned : List (Item β ε) × Reader α) :
    List (Item β ε) × Reader α :=
  (is ++ scanned.1, scanned.2)

/-- The items found in at most `fuel` cuts, and what is left. -/
def scanWith : Nat → List α → List (Item β ε) × Reader α
  | 0, s => ([], ⟨0, s⟩)
  | fuel + 1, s =>
    match cut s with
    | .wait => ([], ⟨0, s⟩)
    | .emit b rest => prepend [.frame b] (scanWith fuel rest)
    | .fail error skip =>
      if s.length < skip then ([.failure error], ⟨skip - s.length, []⟩)
      else prepend [.failure error] (scanWith fuel (s.drop skip))

/-- The items of a stream. Every cut uses up an element, so its length is fuel enough. -/
def scan (s : List α) : List (Item β ε) × Reader α := scanWith cut s.length s

/-- The items of what a reader holds and the stream that follows. -/
def Reader.scan (r : Reader α) (s : List α) : List (Item β ε) × Reader α :=
  if (r.held ++ s).length < r.skip then ([], ⟨r.skip - (r.held ++ s).length, []⟩)
  else Framing.scan cut ((r.held ++ s).drop r.skip)

/-- What a read made of the stream, as items. -/
def Output.items (out : Output α β ε) : List (Item β ε) :=
  out.frames.map .frame ++ out.error.toList.map .failure

variable {cut}

@[simp] theorem prepend_nil (scanned : List (Item β ε) × Reader α) :
    prepend [] scanned = scanned := rfl

@[simp] theorem prepend_prepend (is js : List (Item β ε)) (scanned : List (Item β ε) × Reader α) :
    prepend is (prepend js scanned) = prepend (is ++ js) scanned := by
  simp [prepend]

@[simp] theorem frames_items (out : Output α β ε) : frames out.items = out.frames := by
  simp [Output.items, frames, List.filterMap_map]

@[simp] theorem failures_items (out : Output α β ε) :
    failures out.items = out.error.toList := by
  simp [Output.items, failures, List.filterMap_map]

/-! ## Cutting from the front -/

/-- Two amounts of fuel that are enough find the same. -/
theorem scanWith_congr (h : Stable cut) :
    ∀ (m n : Nat) {s : List α}, s.length ≤ m → s.length ≤ n → scanWith cut m s = scanWith cut n s
  | 0, n, s, hm, _ => by
    rw [List.length_eq_zero_iff.1 (Nat.le_zero.1 hm)]
    cases n <;> simp [scanWith, h.nil]
  | m + 1, 0, s, _, hn => by
    rw [List.length_eq_zero_iff.1 (Nat.le_zero.1 hn)]
    simp [scanWith, h.nil]
  | m + 1, n + 1, s, hm, hn => by
    simp only [scanWith]
    cases hcut : cut s with
    | wait => rfl
    | emit b rest =>
      have hlt := (h.emit hcut).1
      show prepend _ _ = prepend _ _
      rw [scanWith_congr h m n (by omega) (by omega)]
    | fail error skip =>
      have hpos := (h.fail hcut).1
      have hdrop : (s.drop skip).length ≤ s.length - 1 := by
        rw [List.length_drop]
        omega
      show (if _ then _ else prepend _ _) = if _ then _ else prepend _ _
      rw [scanWith_congr h m n (by omega) (by omega)]

theorem scan_wait {s : List α} (hcut : cut s = .wait) : scan cut s = ([], ⟨0, s⟩) := by
  unfold scan
  cases s.length <;> simp [scanWith, hcut]

theorem scan_emit (h : Stable cut) {s rest : List α} {b : β} (hcut : cut s = .emit b rest) :
    scan cut s = prepend [.frame b] (scan cut rest) := by
  have hlt := (h.emit hcut).1
  obtain ⟨n, hn⟩ : ∃ n, s.length = n + 1 := ⟨s.length - 1, by omega⟩
  rw [scan, hn, scanWith, hcut]
  show prepend _ (scanWith cut n rest) = _
  rw [scanWith_congr h n rest.length (by omega) (Nat.le_refl _)]
  rfl

theorem scan_fail (h : Stable cut) {s : List α} {e : ε} {skip : Nat}
    (hcut : cut s = .fail e skip) :
    scan cut s = prepend [.failure e] ((Reader.mk skip []).scan cut s) := by
  have hpos := (h.fail hcut).1
  have hne : s ≠ [] := by
    rintro rfl
    rw [h.nil] at hcut
    cases hcut
  obtain ⟨n, hn⟩ : ∃ n, s.length = n + 1 :=
    ⟨s.length - 1, by have := List.length_pos_iff.2 hne; omega⟩
  have hdrop : (s.drop skip).length ≤ n := by
    rw [List.length_drop]
    omega
  rw [scan, hn, scanWith, hcut]
  show (if s.length < skip then _ else prepend _ (scanWith cut n (s.drop skip))) = _
  rw [scanWith_congr h n _ hdrop (Nat.le_refl _)]
  show _ = prepend _ (if s.length < skip then _ else scan cut (s.drop skip))
  split_ifs <;> rfl

/-- The frame of a self-delimiting code word comes first. -/
theorem scan_framed (h : Stable cut) {b : β} {e : List α} (he : Framed cut b e) (rest : List α) :
    scan cut (e ++ rest) = prepend [.frame b] (scan cut rest) :=
  scan_emit h (he.emit rest)

/-- What the cutter discards whatever follows is one failure. -/
theorem scan_discarded (h : Stable cut) {e : List α} {err : ε}
    (he : ∀ rest, cut (e ++ rest) = .fail err e.length) (rest : List α) :
    scan cut (e ++ rest) = prepend [.failure err] (scan cut rest) := by
  have hle : ¬ ([] ++ (e ++ rest)).length < e.length := by simp
  rw [scan_fail h (he rest), Reader.scan, if_neg hle, List.nil_append, List.drop_left]

/-- After a failure the reader goes on behind the elements to be skipped. -/
theorem scan_skipped (buf later : List α) (skip : Nat) :
    (Reader.mk (skip - buf.length) (buf.drop skip)).scan cut later =
      (Reader.mk skip []).scan cut (buf ++ later) := by
  by_cases hle : skip ≤ buf.length
  · have hlt : ¬ (buf ++ later).length < skip := by
      rw [List.length_append]
      omega
    simp only [Reader.scan, Nat.sub_eq_zero_of_le hle, Nat.not_lt_zero, if_false, List.drop_zero,
      List.nil_append, List.drop_append_of_le_length hle]
    rw [if_neg hlt]
  · have hnil : buf.drop skip = [] := List.drop_eq_nil_of_le (by omega)
    simp only [Reader.scan, hnil, List.nil_append, List.length_append, List.drop_append]
    by_cases hlt : later.length < skip - buf.length
    · rw [if_pos hlt, if_pos (by omega), Nat.sub_sub]
    · rw [if_neg hlt, if_neg (by omega)]

/-- A stream can be scanned piece by piece. -/
theorem scan_append (h : Stable cut) (s t : List α) :
    scan cut (s ++ t) = prepend (scan cut s).1 ((scan cut s).2.scan cut t) := by
  induction hn : s.length using Nat.strongRecOn generalizing s with
  | _ n ih =>
    cases hcut : cut s with
    | wait =>
      rw [scan_wait hcut]
      simp [Reader.scan]
    | emit b rest =>
      obtain ⟨hlt, hemit⟩ := h.emit hcut
      rw [scan_emit h (hemit t), scan_emit h hcut, ih rest.length (hn ▸ hlt) rest rfl]
      simp [prepend]
    | fail e skip =>
      obtain ⟨hpos, hfail⟩ := h.fail hcut
      rw [scan_fail h (hfail t), scan_fail h hcut, ← scan_skipped]
      by_cases hlt : s.length < skip
      · have hshort : (Reader.mk skip []).scan cut s = ([], ⟨skip - s.length, []⟩) := if_pos hlt
        rw [hshort, List.drop_eq_nil_of_le (by omega)]
        simp [prepend]
      · have hlong : (Reader.mk skip []).scan cut s = scan cut (s.drop skip) := if_neg hlt
        have hne : s ≠ [] := by
          rintro rfl
          rw [h.nil] at hcut
          cases hcut
        have hdrop : (s.drop skip).length < n := by
          have := List.length_pos_iff.2 hne
          rw [List.length_drop]
          omega
        have hrest : (Reader.mk (skip - s.length) (s.drop skip)).scan cut t =
            scan cut (s.drop skip ++ t) := by
          rw [Reader.scan, Nat.sub_eq_zero_of_le (by omega)]
          rfl
        rw [hlong, hrest, ih _ hdrop _ rfl]
        simp [prepend]

/-! ## Reading -/

/-- What cutting makes of the elements held comes before all that follows. -/
theorem scan_drain (h : Stable cut) (later : List α) :
    ∀ {fuel : Nat} {buf : List α}, buf.length ≤ fuel →
      scan cut (buf ++ later) =
        prepend (drain cut fuel buf).items ((drain cut fuel buf).reader.scan cut later)
  | 0, buf, hfuel => by
    rw [List.length_eq_zero_iff.1 (Nat.le_zero.1 hfuel)]
    rfl
  | fuel + 1, buf, hfuel => by
    cases hcut : cut buf with
    | wait => simp [drain, hcut, Output.items, Reader.scan]
    | emit b rest =>
      obtain ⟨hlt, hemit⟩ := h.emit hcut
      have hle : rest.length ≤ fuel := by omega
      have ih := scan_drain h later hle
      rw [scan_emit h (hemit later), ih]
      simp [drain, hcut, Output.items]
    | fail e skip =>
      obtain ⟨-, hfail⟩ := h.fail hcut
      rw [scan_fail h (hfail later), ← scan_skipped]
      simp [drain, hcut, Output.items]

theorem scan_read (h : Stable cut) (r : Reader α) (chunk later : List α) :
    r.scan cut (chunk ++ later) =
      prepend (read cut r chunk).items ((read cut r chunk).reader.scan cut later) := by
  unfold read
  split
  · rename_i hlt
    show _ = Reader.scan cut ⟨r.skip - (r.held ++ chunk).length, []⟩ later
    have hnil : (r.held ++ chunk).drop r.skip = [] := List.drop_eq_nil_of_le (by omega)
    have hskipped : Reader.scan cut ⟨r.skip - (r.held ++ chunk).length,
        (r.held ++ chunk).drop r.skip⟩ later = _ := scan_skipped (r.held ++ chunk) later r.skip
    rw [hnil] at hskipped
    rw [hskipped]
    simp [Reader.scan]
  · rename_i hle
    rw [← scan_drain h later (by rw [List.length_drop]; omega), Reader.scan, ← List.append_assoc,
      if_neg (by rw [List.length_append]; omega), List.drop_append_of_le_length (by omega)]

/-- **Only the stream matters.** The frames and the failures of any reads, followed by those of what
the reader holds and of what comes later, are those of the stream. -/
theorem scan_feed (h : Stable cut) (r : Reader α) (chunks : List (List α)) (later : List α) :
    let fed := feed cut r chunks
    let all := r.scan cut (chunks.flatten ++ later)
    frames all.1 = fed.1 ++ frames (fed.2.1.scan cut later).1 ∧
      failures all.1 = fed.2.2 ++ failures (fed.2.1.scan cut later).1 ∧
      all.2 = (fed.2.1.scan cut later).2 := by
  induction chunks generalizing r with
  | nil => simp [feed]
  | cons chunk chunks ih =>
    obtain ⟨hframes, hfailures, hleft⟩ := ih (read cut r chunk).reader
    have hread := scan_read h r chunk (chunks.flatten ++ later)
    simp only [List.flatten_cons, List.append_assoc, feed, hread, prepend, frames_append,
      failures_append, frames_items, failures_items]
    exact ⟨by rw [hframes], by rw [hfailures], hleft⟩

/-- Cutting that does not fail ends where the cutter waits. -/
theorem drain_wait (h : Stable cut) :
    ∀ {fuel : Nat} {buf : List α}, buf.length ≤ fuel → (drain cut fuel buf).error = none →
      (drain cut fuel buf).reader.skip = 0 ∧ cut (drain cut fuel buf).reader.held = .wait
  | 0, buf, hfuel, _ => by
    rw [List.length_eq_zero_iff.1 (Nat.le_zero.1 hfuel)]
    exact ⟨rfl, h.nil⟩
  | fuel + 1, buf, hfuel, herror => by
    cases hcut : cut buf with
    | wait => simp [drain, hcut]
    | emit b rest =>
      have hlt := (h.emit hcut).1
      simp only [drain, hcut] at herror ⊢
      exact drain_wait h (by omega) herror
    | fail e skip => simp [drain, hcut] at herror

/-- After a read that does not fail the cutter waits, and there is nothing to make of what is
held. -/
theorem scan_reader (h : Stable cut) (r : Reader α) (chunk : List α)
    (herror : (read cut r chunk).error = none) :
    cut (read cut r chunk).reader.held = .wait ∧
      (read cut r chunk).reader.scan cut [] = ([], (read cut r chunk).reader) := by
  unfold read at herror ⊢
  split
  · rename_i hlt
    refine ⟨h.nil, ?_⟩
    rw [Reader.scan, if_pos (by simp only [List.append_nil, List.length_nil]; omega)]
    rfl
  · rename_i hle
    rw [if_neg hle] at herror
    obtain ⟨hskip, hwait⟩ := drain_wait h (by rw [List.length_drop]; omega) herror
    refine ⟨hwait, ?_⟩
    rw [Reader.scan, hskip, if_neg (Nat.not_lt_zero _), List.append_nil, List.drop_zero,
      scan_wait hwait, ← hskip]

end Framing
