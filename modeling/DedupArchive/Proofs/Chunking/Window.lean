/-
  DedupArchive/Proofs/Chunking/Window.lean
  ========================================
  **What a detector knows of its stream.**

  The ring of a detector is linear while it fills and turns afterwards;
  `Detector.window` reads both forms in the order of the stream.  A detector
  `Tracks` a stream and its last cut when the window is the last bytes of the
  stream, the running value is the fingerprint of that window, and the count is
  the distance from the last cut.  `Tracks.take` is the step: one more byte keeps
  all this, and the answer is the cutting rule of `Cut`, which takes its
  fingerprint afresh.
-/
import DedupArchive.Chunking.Cut
import DedupArchive.Chunking.Detector
import DedupArchive.Proofs.Chunking.Rolling

namespace DedupArchive.Detector

/-! ### The window -/

/-- The bytes in the ring that belong to this stream, oldest first. -/
def window (d : Detector) : Bytes :=
  if d.filled < d.roller.width then d.ring.toList.take d.filled
  else d.ring.toList.drop d.head ++ d.ring.toList.take d.head

theorem window_of_filling {d : Detector} (h : d.filled < d.roller.width) :
    d.window = d.ring.toList.take d.filled := if_pos h

theorem window_of_full {d : Detector} (h : ¬ d.filled < d.roller.width) :
    d.window = d.ring.toList.drop d.head ++ d.ring.toList.take d.head := if_neg h

/-! ### One byte into the ring -/

theorem slide_of_filling {d : Detector} (b : UInt8) (h : d.filled < d.roller.width) :
    d.slide b = { d with
      ring := d.ring.set d.filled b
      filled := d.filled + 1
      value :=
        if d.filled + 1 = d.roller.width then
          fingerprint d.roller.multiplier (d.ring.set d.filled b).toList
        else d.value } := dif_pos h

theorem slide_of_full {d : Detector} (b : UInt8) (h : ¬ d.filled < d.roller.width) :
    d.slide b = { d with
      ring := d.ring.set d.head b
      head := ⟨(d.head.val + 1) % d.roller.width, Nat.mod_lt _ d.roller.width_pos⟩
      value := d.roller.advance d.value d.ring[d.head] b } := dif_neg h

/-- The slots up to one that has just been written. -/
theorem take_set_succ {slots : Bytes} {slot : Nat} (b : UInt8) (h : slot < slots.length) :
    (slots.set slot b).take (slot + 1) = slots.take slot ++ [b] := by
  rw [List.take_succ_eq_append_getElem (by rwa [List.length_set]), List.take_set_of_le (Nat.le_refl _),
    List.getElem_set_self]

/-- While the ring fills, the new byte comes after those that are there. -/
theorem window_slide_of_filling {d : Detector} (b : UInt8) (h : d.filled < d.roller.width)
    (hhead : d.head.val = 0) : (d.slide b).window = d.window ++ [b] := by
  have hlength : d.ring.toList.length = d.roller.width := d.ring.length_toList
  have htaken : (d.ring.set d.filled b).toList.take (d.filled + 1) =
      d.ring.toList.take d.filled ++ [b] := by
    rw [Vector.toList_set, take_set_succ b (by omega)]
  rw [window_of_filling h, slide_of_filling b h, ← htaken]
  by_cases hfull : d.filled + 1 < d.roller.width
  · exact window_of_filling hfull
  · -- the ring has just become full, and its oldest byte is in the first slot
    rw [window_of_full hfull]
    simp only [hhead, List.drop_zero, List.take_zero, List.append_nil]
    rw [List.take_of_length_le]
    rw [Vector.length_toList]
    omega

/-- The oldest byte of a full ring and what follows it. -/
theorem window_of_full_eq_cons {d : Detector} (h : ¬ d.filled < d.roller.width) :
    d.window = d.ring[d.head] ::
      (d.ring.toList.drop (d.head.val + 1) ++ d.ring.toList.take d.head.val) := by
  have hhead : d.head.val < d.ring.toList.length := by
    rw [Vector.length_toList]
    exact d.head.isLt
  rw [window_of_full h, List.drop_eq_getElem_cons hhead, List.cons_append, Vector.getElem_toList]
  rfl

/-- Once the ring is full, the new byte takes the place of the oldest. -/
theorem window_slide_of_full {d : Detector} (b : UInt8) (h : ¬ d.filled < d.roller.width) :
    (d.slide b).window = d.window.tail ++ [b] := by
  have hlength : d.ring.toList.length = d.roller.width := d.ring.length_toList
  have hhead : d.head.val < d.roller.width := d.head.isLt
  have hring : (d.ring.set d.head b).toList =
      d.ring.toList.take d.head ++ b :: d.ring.toList.drop (d.head + 1) := by
    rw [Vector.toList_set, List.set_eq_take_append_cons_drop, if_pos (by omega)]
  have htaken : (d.ring.toList.take d.head).length = d.head := by
    rw [List.length_take]
    omega
  rw [window_of_full_eq_cons h, List.tail_cons, slide_of_full b h]
  simp only [window, if_neg h, hring]
  by_cases hlast : d.head.val + 1 < d.roller.width
  · have hnext : (d.head.val + 1) % d.roller.width = d.head.val + 1 := Nat.mod_eq_of_lt hlast
    simp only [hnext]
    rw [List.drop_append, List.take_append, htaken, Nat.add_sub_cancel_left,
      List.drop_of_length_le (by omega), List.take_of_length_le (by omega)]
    simp
  · -- the newest byte is in the last slot, so the head turns to the first
    have hend : d.head.val + 1 = d.roller.width := by omega
    have hnext : (d.head.val + 1) % d.roller.width = 0 := by rw [hend, Nat.mod_self]
    simp only [hnext]
    rw [List.drop_zero, List.take_zero, List.append_nil, List.drop_of_length_le (by omega)]
    rfl

/-! ### Keeping track of a stream -/

/-- The detector has seen these bytes since it was started, and the last cut
    among them fell at this position. -/
structure Tracks (d : Detector) (p : Params) (seen : Bytes) (last : Nat) : Prop where
  width : d.roller.width = p.width
  multiplier : d.roller.multiplier = p.multiplier
  mask : d.mask = p.mask
  minSize : d.minSize = p.minSize.toNat
  maxSize : d.maxSize = p.maxSize.map UInt64.toNat
  filled : d.filled = min seen.length p.width
  head : seen.length < p.width → d.head.val = 0
  window : d.window = seen.drop (seen.length - p.width)
  value : p.width ≤ seen.length → d.value = fingerprint p.multiplier d.window
  last_le : last ≤ seen.length
  sinceCut : d.sinceCut = seen.length - last

theorem tracks_start (p : Params) : (start p).Tracks p [] 0 where
  width := rfl
  multiplier := rfl
  mask := rfl
  minSize := rfl
  maxSize := rfl
  filled := (Nat.min_eq_left (Nat.zero_le _)).symm
  head _ := rfl
  window := by
    rw [window_of_filling (show (start p).filled < (start p).roller.width from p.width_pos)]
    show List.take 0 _ = List.drop _ []
    rw [List.take_zero, List.drop_nil]
  value h := absurd h (Nat.not_le_of_lt p.width_pos)
  last_le := Nat.le_refl _
  sinceCut := rfl

section Slide

variable {d : Detector} {p : Params} {seen : Bytes} {last : Nat}

theorem slide_roller (d : Detector) (b : UInt8) : (d.slide b).roller = d.roller := by
  simp only [slide]
  split <;> rfl

theorem slide_rules (d : Detector) (b : UInt8) : (d.slide b).mask = d.mask ∧
    (d.slide b).minSize = d.minSize ∧ (d.slide b).maxSize = d.maxSize ∧
    (d.slide b).sinceCut = d.sinceCut := by
  simp only [slide]
  split <;> exact ⟨rfl, rfl, rfl, rfl⟩

theorem Tracks.filling_iff (h : d.Tracks p seen last) :
    d.filled < d.roller.width ↔ seen.length < p.width := by
  rw [h.filled, h.width]
  omega

/-- The window after one more byte is the end of the stream after one more byte. -/
theorem Tracks.window_slide (h : d.Tracks p seen last) (b : UInt8) :
    (d.slide b).window = (seen ++ [b]).drop ((seen ++ [b]).length - p.width) := by
  rw [List.length_append, List.length_singleton]
  by_cases hlt : seen.length < p.width
  · have hshort : seen.length - p.width = 0 := by omega
    have hnext : seen.length + 1 - p.width = 0 := by omega
    rw [window_slide_of_filling b (h.filling_iff.mpr hlt) (h.head hlt), h.window, hshort, hnext,
      List.drop_zero, List.drop_zero]
  · have hnext : seen.length + 1 - p.width = seen.length - p.width + 1 := by omega
    rw [window_slide_of_full b (mt h.filling_iff.mp hlt), h.window, hnext, List.tail_drop,
      List.drop_append_of_le_length]
    have := p.width_pos
    omega

/-- The value after one more byte is the fingerprint of the window after it. -/
theorem Tracks.value_slide (h : d.Tracks p seen last) (b : UInt8)
    (hready : p.width ≤ seen.length + 1) :
    (d.slide b).value = fingerprint p.multiplier (d.slide b).window := by
  by_cases hlt : seen.length < p.width
  · -- the first full window is taken afresh, and the ring is still in order
    have hfilling := h.filling_iff.mpr hlt
    have hfull : d.filled + 1 = d.roller.width := by
      rw [h.filled, h.width]
      omega
    have hnot : ¬ d.filled + 1 < d.roller.width := by omega
    rw [slide_of_filling b hfilling]
    simp only [Detector.window, if_neg hnot, if_pos hfull, h.head hlt, h.multiplier,
      List.drop_zero, List.take_zero, List.append_nil]
  · have hfull := mt h.filling_iff.mp hlt
    have hlength : (d.ring.toList.drop (d.head.val + 1) ++ d.ring.toList.take d.head.val).length + 1 =
        d.roller.width := by
      have hhead := d.head.isLt
      rw [List.length_append, List.length_drop, List.length_take, Vector.length_toList]
      omega
    have hroll := d.roller.advance_fingerprint d.ring[d.head] b _ hlength
    rw [← window_of_full_eq_cons hfull, h.multiplier, ← h.value (by omega)] at hroll
    rw [window_slide_of_full b hfull, window_of_full_eq_cons hfull, List.tail_cons, ← hroll,
      slide_of_full b hfull]

/-- Everything but the distance from the last cut follows the stream when the
    window moves. -/
theorem Tracks.slide (h : d.Tracks p seen last) (b : UInt8) :
    Tracks { d.slide b with sinceCut := d.sinceCut + 1 } p (seen ++ [b]) last where
  width := by simp only [slide_roller, h.width]
  multiplier := by simp only [slide_roller, h.multiplier]
  mask := (slide_rules d b).1.trans h.mask
  minSize := (slide_rules d b).2.1.trans h.minSize
  maxSize := (slide_rules d b).2.2.1.trans h.maxSize
  filled := by
    rw [List.length_append, List.length_singleton]
    by_cases hlt : seen.length < p.width
    · rw [slide_of_filling b (h.filling_iff.mpr hlt)]
      simp only [h.filled]
      omega
    · rw [slide_of_full b (mt h.filling_iff.mp hlt)]
      simp only [h.filled]
      omega
  head hlt := by
    rw [List.length_append, List.length_singleton] at hlt
    rw [slide_of_filling b (h.filling_iff.mpr (by omega))]
    exact h.head (by omega)
  window := h.window_slide b
  value hready := h.value_slide b (by
    rw [List.length_append, List.length_singleton] at hready
    exact hready)
  last_le := by
    rw [List.length_append]
    exact Nat.le_add_right_of_le h.last_le
  sinceCut := by
    have hlast := h.last_le
    rw [List.length_append, List.length_singleton]
    simp only [h.sinceCut]
    omega

/-- A cut resets the distance and nothing else. -/
theorem Tracks.cut (h : d.Tracks p seen last) :
    Tracks { d with sinceCut := 0 } p seen seen.length :=
  { h with
    last_le := Nat.le_refl _
    sinceCut := (Nat.sub_self _).symm }

/-- The detector's verdict is the cutting rule. -/
theorem Tracks.isCut (h : d.Tracks p seen last) : d.isCut = cutsAt p seen last seen.length := by
  have hmax : d.maxSize.any (· ≤ d.sinceCut) = p.maxSize.any (·.toNat ≤ seen.length - last) := by
    rw [h.maxSize, h.sinceCut]
    cases p.maxSize <;> rfl
  have hmatch : (d.isReady && d.value &&& d.mask == 0) = matchesAt p seen seen.length := by
    by_cases hready : p.width ≤ seen.length
    · have hwindow : windowBefore p seen seen.length = d.window := by
        rw [windowBefore, h.window, List.take_of_length_le]
        rw [List.length_drop]
        omega
      have hfilled : d.isReady = true := by
        rw [isReady, beq_iff_eq, h.filled, h.width]
        omega
      rw [matchesAt, hwindow, h.value hready, h.mask, hfilled, decide_eq_true hready]
    · have hfilled : d.isReady = false := by
        rw [isReady, beq_eq_false_iff_ne, h.filled, h.width]
        omega
      rw [matchesAt, hfilled, decide_eq_false hready, Bool.false_and, Bool.false_and]
  rw [Detector.isCut, cutsAt, hmax, hmatch, h.minSize, h.sinceCut]

/-- **One byte.**  The detector answers by the cutting rule and keeps track. -/
theorem Tracks.take (h : d.Tracks p seen last) (b : UInt8) :
    (d.take b).2 = cutsAt p (seen ++ [b]) last (seen.length + 1) ∧
      (d.take b).1.Tracks p (seen ++ [b]) (if (d.take b).2 then seen.length + 1 else last) := by
  have hslide := h.slide b
  have hcut := hslide.isCut
  have hlength : (seen ++ [b]).length = seen.length + 1 := by
    rw [List.length_append, List.length_singleton]
  rw [hlength] at hcut
  have hsince : (d.slide b).sinceCut = d.sinceCut := (slide_rules d b).2.2.2
  simp only [Detector.take, hsince]
  by_cases hverdict : cutsAt p (seen ++ [b]) last (seen.length + 1) = true
  · rw [if_pos (hcut.trans hverdict)]
    refine ⟨hverdict.symm, ?_⟩
    rw [if_pos rfl, ← hlength]
    exact hslide.cut
  · rw [Bool.not_eq_true] at hverdict
    rw [if_neg (by rw [hcut, hverdict]; exact Bool.false_ne_true)]
    refine ⟨hverdict.symm, ?_⟩
    rw [if_neg Bool.false_ne_true]
    exact hslide

end Slide

end DedupArchive.Detector
