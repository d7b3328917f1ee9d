import Mathlib.Data.List.Forall2
import Mathlib.Data.List.Infix

/-!
# Cutting a stream into frames

A stream arrives in reads of arbitrary size. A *cutter* looks at what is held and says one of
three things: wait for more, here is a frame and what follows it, or the stream is bad here and
so many elements are to be skipped. A `Reader` accumulates reads, cuts as long as there is
something to cut, and stops cutting for this read when the cutter fails.

Two rules:

* `frames_of_read`: what holds of every frame the cutter emits holds of every frame a reader
  emits, whatever the stream and however it is cut into reads.
* `feed_framed`: when every code word of a stream is self-delimiting (`Framed`), every way of
  cutting the stream into reads emits exactly the frames of the code words, in order, fails
  nowhere and leaves nothing held.
-/

namespace Framing

/-- What a cutter makes of the elements held. -/
inductive Cut (α β ε : Type*)
  | wait
  | emit (frame : β) (rest : List α)
  | fail (error : ε) (skip : Nat)
  deriving DecidableEq, Repr

/-- The elements held back for the next read, and how many elements of the coming reads are to be
thrown away first. -/
structure Reader (α : Type*) where
  skip : Nat
  held : List α
  deriving DecidableEq, Repr

/-- What one read makes a reader do: the frames it emits, what it keeps, the failure that ended
the cutting, if any. -/
structure Output (α β ε : Type*) where
  frames : List β
  reader : Reader α
  error : Option ε
  deriving DecidableEq, Repr

/-- A reader that holds nothing. -/
def Reader.empty {α : Type*} : Reader α := ⟨0, []⟩

variable {α β ε : Type*} (cut : List α → Cut α β ε)

/-- Cut the elements held, at most `fuel` times. -/
def drain : Nat → List α → Output α β ε
  | 0, buf => ⟨[], ⟨0, buf⟩, none⟩
  | fuel + 1, buf =>
    match cut buf with
    | .wait => ⟨[], ⟨0, buf⟩, none⟩
    | .emit frame rest =>
      let out := drain fuel rest
      { out with frames := frame :: out.frames }
    | .fail error skip => ⟨[], ⟨skip - buf.length, buf.drop skip⟩, some error⟩

/-- Take one read in: skip what is to be skipped, then cut. -/
def read (r : Reader α) (chunk : List α) : Output α β ε :=
  if (r.held ++ chunk).length < r.skip then ⟨[], ⟨r.skip - (r.held ++ chunk).length, []⟩, none⟩
  else drain cut (r.held ++ chunk).length ((r.held ++ chunk).drop r.skip)

/-- Take several reads in: all frames emitted, the reader after the last read, all failures. -/
def feed (r : Reader α) : List (List α) → List β × Reader α × List ε
  | [] => ([], r, [])
  | chunk :: chunks =>
    let out := read cut r chunk
    let later := feed out.reader chunks
    (out.frames ++ later.1, later.2.1, out.error.toList ++ later.2.2)

/-! ## Every emitted frame is one the cutter emits -/

variable {cut}

theorem frames_of_drain {P : β → Prop} (hcut : ∀ buf b rest, cut buf = .emit b rest → P b) :
    ∀ (fuel : Nat) (buf : List α), ∀ b ∈ (drain cut fuel buf).frames, P b
  | 0, _ => by simp [drain]
  | fuel + 1, buf => by
    intro b hb
    unfold drain at hb
    split at hb
    · simp at hb
    · rename_i frame rest hemit
      rcases List.mem_cons.1 hb with rfl | hb
      · exact hcut buf b rest hemit
      · exact frames_of_drain hcut fuel rest b hb
    · simp at hb

theorem frames_of_read {P : β → Prop} (hcut : ∀ buf b rest, cut buf = .emit b rest → P b)
    (r : Reader α) (chunk : List α) : ∀ b ∈ (read cut r chunk).frames, P b := by
  intro b hb
  unfold read at hb
  split at hb
  · simp at hb
  · exact frames_of_drain hcut _ _ b hb

theorem frames_of_feed {P : β → Prop} (hcut : ∀ buf b rest, cut buf = .emit b rest → P b)
    (r : Reader α) (chunks : List (List α)) : ∀ b ∈ (feed cut r chunks).1, P b := by
  induction chunks generalizing r with
  | nil => simp [feed]
  | cons chunk chunks ih =>
    intro b hb
    rcases List.mem_append.1 hb with hb | hb
    · exact frames_of_read hcut r chunk b hb
    · exact ih _ b hb

/-! ## Self-delimiting code words -/

/-- The code word `e` announces the frame `b` and where it ends: `b` is cut off whatever follows,
and no proper prefix of `e` is cut. -/
structure Framed (cut : List α → Cut α β ε) (b : β) (e : List α) : Prop where
  emit : ∀ rest, cut (e ++ rest) = .emit b rest
  wait : ∀ p, p <+: e → p ≠ e → cut p = .wait

/-- Where a read ends inside a stream of code words: after some of them, before a part `held` of
the next. `future` is what later reads bring. -/
structure Boundary (cut : List α → Cut α β ε) (out : Output α β ε) (bs : List β)
    (es : List (List α)) (future : List α) : Prop where
  error : out.error = none
  skip : out.reader.skip = 0
  wait : cut out.reader.held = .wait
  rest : ∃ bs' es', bs = out.frames ++ bs' ∧ List.Forall₂ (Framed cut) bs' es' ∧
    out.reader.held ++ future = es'.flatten

/-- Cutting what is held of a stream of code words stops at a boundary. -/
theorem drain_framed (hnil : cut [] = .wait) {bs : List β} {es : List (List α)}
    (hes : List.Forall₂ (Framed cut) bs es) :
    ∀ {fuel : Nat} {buf future : List α}, buf.length ≤ fuel → buf ++ future = es.flatten →
      Boundary cut (drain cut fuel buf) bs es future := by
  induction hes with
  | nil =>
    intro fuel buf future _ hbuf
    have hbuf : buf = [] := (List.append_eq_nil_iff.1 hbuf).1
    subst hbuf
    cases fuel <;> simp only [drain, hnil] <;>
      exact ⟨rfl, rfl, hnil, [], [], rfl, .nil, by simpa using hbuf⟩
  | @cons b e bs es he hes ih =>
    intro fuel buf future hfuel hbuf
    have he_prefix : e <+: buf ++ future := ⟨es.flatten, by simpa using hbuf.symm⟩
    rcases List.prefix_or_prefix_of_prefix (List.prefix_append buf future) he_prefix with hp | hp
    · by_cases hbe : buf = e
      · -- exactly this code word is held
        subst hbe
        have hemit : cut buf = .emit b [] := by simpa using he.emit []
        cases fuel with
        | zero =>
          rw [List.length_eq_zero_iff.1 (Nat.le_zero.1 hfuel), hnil] at hemit
          cases hemit
        | succ fuel =>
          have hfut : future = es.flatten := List.append_cancel_left hbuf
          have hb : Boundary cut (drain cut fuel []) bs es future :=
            ih (by simp) (by simpa using hfut)
          obtain ⟨bs', es', rfl, hes', hrest⟩ := hb.rest
          simp only [drain, hemit]
          exact ⟨hb.error, hb.skip, hb.wait, bs', es', rfl, hes', hrest⟩
      · -- only a part of this code word is held
        have hwait : cut buf = .wait := he.wait buf hp hbe
        cases fuel <;> simp only [drain, hwait] <;>
          exact ⟨rfl, rfl, hwait, b :: bs, e :: es, rfl, .cons he hes, hbuf⟩
    · -- this code word and more is held
      obtain ⟨rest, rfl⟩ := hp
      cases fuel with
      | zero =>
        have hnil' : e ++ rest = [] := List.length_eq_zero_iff.1 (Nat.le_zero.1 hfuel)
        have hemit := he.emit rest
        rw [hnil', hnil] at hemit
        cases hemit
      | succ fuel =>
        have hpos : e ≠ [] := by
          rintro rfl
          have hemit := he.emit []
          simp only [List.append_nil, hnil] at hemit
          cases hemit
        have hlen : rest.length ≤ fuel := by
          have := List.length_pos_iff.2 hpos
          simp only [List.length_append] at hfuel
          omega
        have hb : Boundary cut (drain cut fuel rest) bs es future := ih hlen (by simpa using hbuf)
        obtain ⟨bs', es', rfl, hes', hrest⟩ := hb.rest
        simp only [drain, he.emit rest]
        exact ⟨hb.error, hb.skip, hb.wait, bs', es', rfl, hes', hrest⟩

/-- From a boundary on, any reads of the rest of the stream emit the frames that are left. -/
theorem feed_framed_from (hnil : cut [] = .wait) (chunks : List (List α)) :
    ∀ {held : List α} {bs : List β} {es : List (List α)},
      List.Forall₂ (Framed cut) bs es → cut held = .wait →
      held ++ chunks.flatten = es.flatten →
      feed cut ⟨0, held⟩ chunks = (bs, Reader.empty, []) := by
  induction chunks with
  | nil =>
    intro held bs es hes hwait hstream
    cases hes with
    | nil => simp_all [feed, Reader.empty]
    | @cons b e bs es he hes =>
      have hemit := he.emit es.flatten
      rw [show e ++ es.flatten = held by simpa using hstream.symm, hwait] at hemit
      cases hemit
  | cons chunk chunks ih =>
    intro held bs es hes hwait hstream
    have hread : read cut ⟨0, held⟩ chunk = drain cut (held ++ chunk).length (held ++ chunk) := by
      simp [read]
    have hstream' : (held ++ chunk) ++ chunks.flatten = es.flatten := by simpa using hstream
    have hb := drain_framed hnil hes (Nat.le_refl (held ++ chunk).length) hstream'
    rw [← hread] at hb
    generalize hout : read cut ⟨0, held⟩ chunk = out at hb
    obtain ⟨frames, ⟨skip, held'⟩, error⟩ := out
    obtain ⟨rfl, rfl, hwait', bs', es', rfl, hes', hrest⟩ := hb
    simp [feed, hout, ih hes' hwait' hrest]

/-- **Chunking does not matter.** However a stream of self-delimiting code words is cut into reads,
the reader emits their frames in order, never fails, and holds nothing at the end. -/
theorem feed_framed (hnil : cut [] = .wait) {bs : List β} {es : List (List α)}
    (hes : List.Forall₂ (Framed cut) bs es) {chunks : List (List α)}
    (hchunks : chunks.flatten = es.flatten) :
    feed cut Reader.empty chunks = (bs, Reader.empty, []) :=
  feed_framed_from hnil chunks hes hnil (by simpa using hchunks)

/-- One read that brings exactly one code word emits its frame and leaves nothing. -/
theorem read_framed (hnil : cut [] = .wait) {b : β} {e : List α} (he : Framed cut b e) :
    read cut Reader.empty e = ⟨[b], Reader.empty, none⟩ := by
  have hemit : cut e = .emit b [] := by simpa using he.emit []
  cases e with
  | nil => rw [hnil] at hemit; cases hemit
  | cons x e => cases e <;> simp [read, drain, Reader.empty, hemit, hnil]

/-- One read that brings exactly what the cutter discards leaves nothing. -/
theorem read_discarded (hnil : cut [] = .wait) {e : List α} {err : ε}
    (he : cut e = .fail err e.length) : read cut Reader.empty e = ⟨[], Reader.empty, some err⟩ := by
  cases e with
  | nil => rw [hnil] at he; cases he
  | cons x e => simp [read, drain, Reader.empty, he]

end Framing
