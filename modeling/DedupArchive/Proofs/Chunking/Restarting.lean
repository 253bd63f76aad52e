/-
  DedupArchive/Proofs/Chunking/Restarting.lean
  ============================================
  **A detector through one stream after another.**

  The type of a detector keeps its slots inside the ring, and a restart leaves old
  bytes in it.  So two things have to be said from outside.  That no slot is ever
  asked for which is not there: a `BareDetector` has a list for its ring and plain
  numbers for its slots, tests none of them, and gives nothing where a slot is
  missing; it does what the detector does.  That no old byte is ever read: a
  detector whose stream is its second or third is the one it would be if the
  stream were its first, but for slots that the stream has not filled.
-/
import DedupArchive.Proofs.Chunking.Sessions
import Mathlib.Data.List.DropRight

namespace DedupArchive

/-! ### A detector without proofs -/

/-- A detector that does not know whether its slots are in its ring. -/
structure BareDetector where
  roller : Roller
  mask : UInt32
  minSize : Nat
  maxSize : Option Nat
  ring : Bytes
  head : Nat
  filled : Nat
  value : UInt32
  sinceCut : Nat

namespace BareDetector

def start (p : Params) : BareDetector where
  roller := .ofWidth p.width p.multiplier p.width_pos
  mask := p.mask
  minSize := p.minSize.toNat
  maxSize := p.maxSize.map UInt64.toNat
  ring := List.replicate p.width 0
  head := 0
  filled := 0
  value := 0
  sinceCut := 0

def restart (d : BareDetector) : BareDetector :=
  { d with head := 0, filled := 0, value := 0, sinceCut := 0 }

def write? (ring : Bytes) (slot : Nat) (byte : UInt8) : Option Bytes :=
  if slot < ring.length then some (ring.set slot byte) else none

def slide? (d : BareDetector) (byte : UInt8) : Option BareDetector :=
  if d.filled < d.ring.length then do
    let ring ← write? d.ring d.filled byte
    let value := if d.filled + 1 = ring.length then fingerprint d.roller.multiplier ring else d.value
    return { d with ring, filled := d.filled + 1, value }
  else do
    let leaving ← d.ring[d.head]?
    let ring ← write? d.ring d.head byte
    let value := d.roller.advance d.value leaving byte
    return { d with ring, head := (d.head + 1) % d.ring.length, value }

def isCut (d : BareDetector) : Bool :=
  d.minSize ≤ d.sinceCut &&
    (d.maxSize.any (· ≤ d.sinceCut) || (d.filled == d.ring.length && d.value &&& d.mask == 0))

def answer (d : BareDetector) : BareDetector × Bool :=
  let d := { d with sinceCut := d.sinceCut + 1 }
  if d.isCut then ({ d with sinceCut := 0 }, true) else (d, false)

def take? (d : BareDetector) (byte : UInt8) : Option (BareDetector × Bool) :=
  (d.slide? byte).map answer

def window (d : BareDetector) : Bytes := d.ring.drop d.head ++ d.ring.take d.head

end BareDetector

namespace Detector

def bare (d : Detector) : BareDetector where
  roller := d.roller
  mask := d.mask
  minSize := d.minSize
  maxSize := d.maxSize
  ring := d.ring.toList
  head := d.head
  filled := d.filled
  value := d.value
  sinceCut := d.sinceCut

theorem bare_start (p : Params) : (start p).bare = .start p := by
  rw [bare, BareDetector.start]
  congr 1

theorem slide?_bare (d : Detector) (b : UInt8) : d.bare.slide? b = some (d.slide b).bare := by
  by_cases hfill : d.filled < d.roller.width
  · rw [slide_of_filling b hfill]
    simp [BareDetector.slide?, BareDetector.write?, bare, hfill, Vector.toList_set]
  · rw [slide_of_full b hfill]
    simp [BareDetector.slide?, BareDetector.write?, bare, hfill, Vector.toList_set]

/-- **One byte.**  Every slot that is read or written is there. -/
theorem take?_bare (d : Detector) (b : UInt8) :
    d.bare.take? b = some ((d.take b).1.bare, (d.take b).2) := by
  have hcut (d : Detector) : d.bare.isCut = d.isCut := by
    simp only [BareDetector.isCut, isCut, isReady, bare, Vector.length_toList]
    rfl
  have hanswer : (d.slide b).bare.answer = ((d.take b).1.bare, (d.take b).2) := by
    have hcount := hcut { d.slide b with sinceCut := (d.slide b).sinceCut + 1 }
    simp only [bare] at hcount
    simp only [BareDetector.answer, take, bare, hcount]
    cases isCut { d.slide b with sinceCut := (d.slide b).sinceCut + 1 } <;> rfl
  rw [BareDetector.take?, slide?_bare, Option.map_some, hanswer]

/-! ### Courses -/

inductive Call where
  | take (byte : UInt8)
  | restart

/-- A detector, and what has passed since its stream began: the bytes taken and
    the answers to them. -/
structure Course (δ : Type) where
  detector : δ
  fed : Bytes
  answers : List Bool

namespace Course

/-- The position behind the last yes; zero if there is none. -/
def lastYes (answers : List Bool) : Nat := (answers.rdropWhile (!·)).length

theorem lastYes_concat (answers : List Bool) (answer : Bool) :
    lastYes (answers ++ [answer]) = if answer then answers.length + 1 else lastYes answers := by
  cases answer <;> simp [lastYes]

def after (c : Course Detector) : Call → Course Detector
  | .take b => ⟨(c.detector.take b).1, c.fed ++ [b], c.answers ++ [(c.detector.take b).2]⟩
  | .restart => ⟨c.detector.restart, [], []⟩

def after? (c : Course BareDetector) : Call → Option (Course BareDetector)
  | .take b => (c.detector.take? b).map fun (d, answer) => ⟨d, c.fed ++ [b], c.answers ++ [answer]⟩
  | .restart => some ⟨c.detector.restart, [], []⟩

def bare (c : Course Detector) : Course BareDetector := ⟨c.detector.bare, c.fed, c.answers⟩

theorem after?_bare (c : Course Detector) (call : Call) : c.bare.after? call = some (c.after call).bare := by
  cases call with
  | take b =>
    simp only [after?, bare, take?_bare]
    rfl
  | restart => rfl

theorem foldlM_after?_bare (c : Course Detector) (calls : List Call) :
    calls.foldlM after? c.bare = some (calls.foldl after c).bare := by
  induction calls generalizing c with
  | nil => rfl
  | cons call rest ih =>
    rw [List.foldlM_cons, after?_bare]
    exact ih (c.after call)

end Course

def course (p : Params) (calls : List Call) : Course Detector :=
  calls.foldl Course.after ⟨start p, [], []⟩

theorem course_concat (p : Params) (calls : List Call) (call : Call) :
    course p (calls ++ [call]) = (course p calls).after call := by
  rw [course, course, List.foldl_append]
  rfl

/-- The course of a new detector without proofs, if it never misses a slot. -/
def bareCourse? (p : Params) (calls : List Call) : Option (Course BareDetector) :=
  calls.foldlM Course.after? ⟨.start p, [], []⟩

theorem bareCourse?_eq (p : Params) (calls : List Call) :
    bareCourse? p calls = some (course p calls).bare := by
  rw [bareCourse?, ← bare_start]
  exact Course.foldlM_after?_bare ⟨start p, [], []⟩ calls

/-! ### What a course keeps -/

section Kept

variable {p : Params} {c : Course Detector}

structure Course.Kept (p : Params) (c : Course Detector) : Prop where
  tracks : c.detector.Tracks p c.fed (lastYes c.answers)
  answered : c.answers.length = c.fed.length

theorem Course.Kept.after (h : c.Kept p) (call : Call) : (c.after call).Kept p := by
  cases call with
  | take b =>
    refine ⟨?_, ?_⟩
    · have htaken := (h.tracks.take b).2
      rw [← h.answered, ← lastYes_concat] at htaken
      exact htaken
    · simp [Course.after, h.answered]
  | restart => exact ⟨h.tracks.restart, rfl⟩

theorem kept_course (p : Params) (calls : List Call) : (course p calls).Kept p := by
  induction calls using List.reverseRecOn with
  | nil => exact ⟨tracks_start p, rfl⟩
  | append_singleton calls call ih =>
    rw [course_concat]
    exact ih.after call

end Kept

end Detector

/-! ### What old bytes change -/

namespace BareDetector

variable {d d' e : BareDetector} {b : UInt8} {verdict : Bool}

/-- Two detectors that differ in slots which their stream has not filled, if at all. -/
structure Alike (d e : BareDetector) : Prop where
  rest : e = { d with ring := e.ring }
  length : e.ring.length = d.ring.length
  taken : e.ring.take d.filled = d.ring.take d.filled

theorem write?_of_lt {ring : Bytes} {slot : Nat} (h : slot < ring.length) :
    write? ring slot b = some (ring.set slot b) := if_pos h

theorem Alike.slide (h : d.Alike e) (hslide : d.slide? b = some d') :
    ∃ e', e.slide? b = some e' ∧ d'.Alike e' := by
  obtain ⟨heq, hlength, htaken⟩ := h
  generalize e.ring = ring at heq hlength htaken
  subst heq
  by_cases hfill : d.filled < d.ring.length
  · have hfill' : d.filled < ring.length := hlength ▸ hfill
    have htaken' : (ring.set d.filled b).take (d.filled + 1) =
        (d.ring.set d.filled b).take (d.filled + 1) := by
      rw [Detector.take_set_succ b hfill', Detector.take_set_succ b hfill, htaken]
    simp only [slide?, if_pos hfill, write?_of_lt hfill, write?_of_lt hfill',
      Option.bind_eq_bind, Option.bind_some, Option.pure_def, Option.some.injEq, List.length_set,
      hlength] at hslide ⊢
    subst hslide
    refine ⟨_, rfl, ?_, ?_, htaken'⟩
    · by_cases hfull : d.filled + 1 = d.ring.length
      -- the first full window is taken from slots of this stream alone
      · rw [List.take_of_length_le (by rw [List.length_set]; omega),
          List.take_of_length_le (by rw [List.length_set]; omega)] at htaken'
        simp only [htaken']
      · simp only [if_neg hfull]
    · simp only [List.length_set, hlength]
  · -- every slot is filled, so there is no difference
    rw [List.take_of_length_le (by omega), List.take_of_length_le (by omega)] at htaken
    subst htaken
    exact ⟨d', hslide, rfl, rfl, rfl⟩

theorem Alike.answer (h : d.Alike e) : e.answer.2 = d.answer.2 ∧ d.answer.1.Alike e.answer.1 := by
  obtain ⟨heq, hlength, htaken⟩ := h
  generalize e.ring = ring at heq hlength htaken
  subst heq
  have hcut : isCut { d with ring, sinceCut := d.sinceCut + 1 } =
      isCut { d with sinceCut := d.sinceCut + 1 } := by
    simp only [isCut, hlength]
  simp only [BareDetector.answer, hcut]
  cases isCut { d with sinceCut := d.sinceCut + 1 } <;> exact ⟨rfl, rfl, hlength, htaken⟩

theorem Alike.take (h : d.Alike e) (htake : d.take? b = some (d', verdict)) :
    ∃ e', e.take? b = some (e', verdict) ∧ d'.Alike e' := by
  obtain ⟨d₁, hslide, hanswer⟩ := Option.map_eq_some_iff.mp htake
  obtain ⟨e₁, hslide', halike⟩ := h.slide hslide
  obtain ⟨hverdict, hnext⟩ := halike.answer
  rw [hanswer] at hverdict hnext
  refine ⟨e₁.answer.1, ?_, hnext⟩
  rw [take?, hslide', Option.map_some]
  exact congrArg some (Prod.ext rfl hverdict)

end BareDetector

namespace Detector

section Fresh

variable {d : Detector} {p : Params} {c : Course Detector}

theorem Tracks.roller_eq {fed : Bytes} {last : Nat} (h : d.Tracks p fed last) :
    d.roller = .ofWidth p.width p.multiplier p.width_pos := by
  obtain ⟨hwidth, hmultiplier, -⟩ := h
  generalize d.roller = roller at hwidth hmultiplier
  obtain ⟨width, multiplier, top, hpos, htop⟩ := roller
  simp only at hwidth hmultiplier
  subst hwidth hmultiplier htop
  simp only [Roller.ofWidth, power_eq_pow]

/-- A restarted detector has the ring of the last stream and is new otherwise. -/
theorem Tracks.alike_start {fed : Bytes} {last : Nat} (h : d.Tracks p fed last) :
    (start p).bare.Alike d.restart.bare where
  rest := by
    have hroller : (start p).roller = d.roller := h.roller_eq.symm
    have hmask : (start p).mask = d.mask := h.mask.symm
    have hmin : (start p).minSize = d.minSize := h.minSize.symm
    have hmax : (start p).maxSize = d.maxSize := h.maxSize.symm
    simp only [bare, hroller, hmask, hmin, hmax]
    rfl
  length := by
    show d.ring.toList.length = (start p).ring.toList.length
    rw [Vector.length_toList, Vector.length_toList, h.width]
    rfl
  taken := by
    show List.take 0 _ = List.take 0 _
    rw [List.take_zero, List.take_zero]

/-- The stream of a course is as good as the first one of a new detector. -/
structure Course.Fresh (p : Params) (c : Course Detector) : Prop where
  answers : (course p (c.fed.map .take)).answers = c.answers
  alike : (course p (c.fed.map .take)).detector.bare.Alike c.detector.bare

theorem Course.Fresh.after (hfresh : c.Fresh p) (hkept : c.Kept p) (call : Call) :
    (c.after call).Fresh p := by
  cases call with
  | take b =>
    obtain ⟨hanswers, halike⟩ := hfresh
    obtain ⟨e', htake, halike'⟩ := halike.take (take?_bare _ b)
    rw [take?_bare, Option.some.injEq, Prod.mk.injEq] at htake
    have hcourse : course p ((c.fed ++ [b]).map .take) = (course p (c.fed.map .take)).after (.take b) := by
      rw [List.map_append]
      exact course_concat p _ _
    refine ⟨?_, ?_⟩
    · simp only [Course.after, hcourse, hanswers, htake.2]
    · simp only [Course.after, hcourse]
      exact htake.1 ▸ halike'
  | restart => exact ⟨rfl, hkept.tracks.alike_start⟩

theorem fresh_course (p : Params) (calls : List Call) : (course p calls).Fresh p := by
  induction calls using List.reverseRecOn with
  | nil => exact ⟨rfl, rfl, rfl, rfl⟩
  | append_singleton calls call ih =>
    rw [course_concat]
    exact ih.after (kept_course p calls) call

end Fresh

end Detector

/-! ### What a detector knows, seen from outside -/

namespace BareDetector

structure Follows (d : BareDetector) (p : Params) (fed : Bytes) (answers : List Bool) : Prop where
  roller : Roller.new p.width p.multiplier = .ok d.roller
  slots : d.ring.length = p.width
  head : d.head < p.width
  filled : d.filled = min fed.length p.width
  answered : answers.length = fed.length
  sinceCut : Detector.Course.lastYes answers + d.sinceCut = fed.length
  filling : d.filled < p.width → d.head = 0 ∧ d.ring.take d.filled = fed
  full : d.filled = p.width → d.window = fed.drop (fed.length - p.width)
  value : d.filled = p.width →
    d.roller.hash d.window = .ok d.value ∧ d.roller.hashByTable d.window = .ok d.value

end BareDetector

namespace Detector

theorem bare_window {d : Detector} (h : ¬ d.filled < d.roller.width) : d.bare.window = d.window := by
  rw [window_of_full h]
  rfl

theorem Tracks.not_filling {d : Detector} {p : Params} {fed : Bytes} {last : Nat}
    (h : d.Tracks p fed last) (hfull : d.filled = p.width) : ¬ d.filled < d.roller.width := by
  rw [h.width]
  exact Nat.not_lt.mpr (Nat.le_of_eq hfull.symm)

theorem Course.Kept.follows {p : Params} {c : Course Detector} (h : c.Kept p) :
    c.detector.bare.Follows p c.fed c.answers where
  roller := by
    rw [Roller.new, dif_pos p.width_pos, ← h.tracks.roller_eq]
    rfl
  slots := (Vector.length_toList ..).trans h.tracks.width
  head := h.tracks.width ▸ c.detector.head.isLt
  filled := h.tracks.filled
  answered := h.answered
  sinceCut := by
    have hcount : c.detector.bare.sinceCut = _ := h.tracks.sinceCut
    rw [hcount, Nat.add_sub_cancel' h.tracks.last_le]
  filling hlt := by
    have hfilling : c.detector.filled < c.detector.roller.width := h.tracks.width ▸ hlt
    have hshort : c.fed.length < p.width := h.tracks.filling_iff.mp hfilling
    have hnone : c.fed.length - p.width = 0 := by omega
    have hwindow := h.tracks.window
    rw [window_of_filling hfilling, hnone, List.drop_zero] at hwindow
    exact ⟨h.tracks.head hshort, hwindow⟩
  full heq := by rw [bare_window (h.tracks.not_filling heq), h.tracks.window]
  value heq := by
    have hfull := h.tracks.not_filling heq
    have hlong : p.width ≤ c.fed.length := Nat.le_of_not_lt (mt h.tracks.filling_iff.mpr hfull)
    have hlength : c.detector.window.length = c.detector.roller.width := by
      rw [h.tracks.window, h.tracks.width, List.length_drop]
      omega
    have hhash : c.detector.roller.hash c.detector.window = .ok c.detector.value := by
      rw [Roller.hash, if_neg (by omega), List.take_of_length_le (by omega), h.tracks.multiplier,
        ← h.tracks.value hlong]
    rw [Roller.hashByTable_eq, bare_window hfull]
    exact ⟨hhash, hhash⟩

/-- **What a detector knows at any time.**  Bytes and restarts in any order never
    ask for a slot that is not in the ring.  The place in the ring, the window in
    it, the fingerprint beside it and the distance from the last cut are those of
    the bytes taken since the last restart.  A detector to which only these bytes
    are fed has given the same answers, and differs in no more than slots which
    they have not filled. -/
theorem window_follows_stream (p : Params) (calls : List Call) :
    ∃ c, bareCourse? p calls = some c ∧ c = (course p calls).bare ∧
      c.detector.Follows p c.fed c.answers ∧
      ∃ first, bareCourse? p (c.fed.map .take) = some first ∧
        first.answers = c.answers ∧ first.detector.Alike c.detector := by
  have hfresh := fresh_course p calls
  exact ⟨_, bareCourse?_eq p calls, rfl, (kept_course p calls).follows, _, bareCourse?_eq p _,
    hfresh.answers, hfresh.alike⟩

end Detector

end DedupArchive
