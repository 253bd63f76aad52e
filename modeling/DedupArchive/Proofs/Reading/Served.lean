/-
  DedupArchive/Proofs/Reading/Served.lean
  =======================================
  **What reads of a source that is read ahead return.**

  Blocks are filled without regard to the reads, and reads are served without
  regard to the source.  Between the two nothing may get lost: no read may find
  nothing while there are bytes to come, for this would be taken for the end.

  What is still to be delivered (`delivered`) is all that a read depends on.  One
  read (`serves_read`) takes bytes from its front, or reports what stands behind
  them.  A run of reads therefore goes through three stages: bytes, then one
  report, then nothing, and which stage it is in can be told from the reads alone.
  If the blocks are too long to allocate, it is in the last one from the start.
-/
import DedupArchive.Proofs.Reading.ReadingAhead
import Mathlib.Data.List.Induction

namespace DedupArchive.ReadAhead

variable {ρ : Type} [Reader ρ]

/-! ### Reads one after the other -/

def after (r : ReadAhead ρ) (sizes : List Nat) : ReadAhead ρ :=
  sizes.foldl (fun r n => (r.read n).2) r

def outcomes (r : ReadAhead ρ) : List Nat → List (Except IoError Bytes)
  | [] => []
  | n :: rest => (r.read n).1 :: outcomes (r.read n).2 rest

/-- All bytes that reads of these sizes return. -/
def returned (r : ReadAhead ρ) (sizes : List Nat) : Bytes :=
  (r.outcomes sizes).flatMap fun outcome => outcome.toOption.getD []

/-- Whether one of the reads asked for something when so much had been returned. -/
def AskedAfter (r : ReadAhead ρ) (data : Bytes) (sizes : List Nat) : Prop :=
  ∃ earlier n later, sizes = earlier ++ n :: later ∧ 0 < n ∧ r.returned earlier = data

variable {r : ReadAhead ρ}

theorem after_concat (sizes : List Nat) (n : Nat) :
    r.after (sizes ++ [n]) = ((r.after sizes).read n).2 := by
  simp [after]

theorem outcomes_concat (sizes : List Nat) (n : Nat) :
    r.outcomes (sizes ++ [n]) = r.outcomes sizes ++ [((r.after sizes).read n).1] := by
  induction sizes generalizing r with
  | nil => rfl
  | cons first rest ih =>
    simp only [List.cons_append, outcomes, ih]
    rfl

theorem returned_concat (sizes : List Nat) (n : Nat) :
    r.returned (sizes ++ [n]) =
      r.returned sizes ++ ((r.after sizes).read n).1.toOption.getD [] := by
  simp [returned, outcomes_concat]

theorem askedAfter_concat_iff {data : Bytes} {sizes : List Nat} {n : Nat} :
    r.AskedAfter data (sizes ++ [n]) ↔ r.AskedAfter data sizes ∨ 0 < n ∧ r.returned sizes = data := by
  constructor
  · rintro ⟨earlier, m, later, heq, hm, hreturned⟩
    rcases List.eq_nil_or_concat later with rfl | ⟨front, last, rfl⟩
    · obtain ⟨rfl, hn⟩ := List.append_inj' heq rfl
      cases hn
      exact Or.inr ⟨hm, hreturned⟩
    · rw [List.concat_eq_append, ← List.cons_append, ← List.append_assoc] at heq
      obtain ⟨rfl, -⟩ := List.append_inj' heq rfl
      exact Or.inl ⟨earlier, m, front, rfl, hm, hreturned⟩
  · rintro (⟨earlier, m, later, rfl, hm, hreturned⟩ | ⟨hn, hreturned⟩)
    · exact ⟨earlier, m, later ++ [n], by simp, hm, hreturned⟩
    · exact ⟨sizes, n, [], rfl, hn, hreturned⟩

/-! ### One read -/

/-- Blocks have room, and an interruption is not kept as a failure. -/
structure IsSound (r : ReadAhead ρ) : Prop where
  room : r.blockSize ≠ 0
  calm : ∀ e, r.next = .failed e → e.kind ≠ .interrupted

omit [Reader ρ] in
theorem isSound_of_new {source : ρ} {blockSize : Nat} (hsize : 0 < blockSize) {ahead : ReadAhead ρ}
    (hnew : new source blockSize = .ok ahead) : ahead.IsSound := by
  rw [new, if_neg (Nat.ne_of_gt hsize)] at hnew
  cases hnew
  exact ⟨Nat.ne_of_gt hsize, nofun⟩

theorem calm_fill {source : ρ} {room : Nat} {taken : Bytes} {e : IoError}
    (h : (fill source room taken).2.1 = .failed e) : e.kind ≠ .interrupted := by
  fun_induction fill source room taken with
  | case1 => cases h
  | case2 => cases h
  | case3 _ _ _ _ _ _ _ ih => exact ih h
  | case4 _ _ _ _ _ _ _ ih => exact ih h
  | case5 source room taken _ cause _ hfails =>
    cases h
    exact hfails

theorem calm_nextBlock {source : ρ} {blockSize : Nat} {e : IoError}
    (h : (nextBlock source blockSize).2.1 = .failed e) : e.kind ≠ .interrupted := by
  unfold nextBlock at h
  split at h
  · cases h
  · exact calm_fill h

theorem IsSound.filled (h : r.IsSound) : r.filled.IsSound := by
  unfold ReadAhead.filled
  split
  · exact ⟨h.room, fun e he => calm_nextBlock he⟩
  · exact h

variable [SteadyReader ρ]

/-- What a read of a size does to what is still to be delivered. -/
inductive Serves (r : ReadAhead ρ) (n : Nat) : Except IoError Bytes × ReadAhead ρ → Prop
  | nothing : n = 0 → Serves r n (.ok [], r)
  | bytes {b : UInt8} {data : Bytes} {r' : ReadAhead ρ} : (b :: data).length ≤ n →
    r.delivered = (b :: data ++ r'.delivered.1, r'.delivered.2) → Serves r n (.ok (b :: data), r')
  | ending {failure : Option IoError} {r' : ReadAhead ρ} : 0 < n →
    (∀ e ∈ failure, e.kind ≠ .interrupted) → r.delivered = ([], failure) →
    r'.delivered = ([], none) → Serves r n (failure.elim (.ok []) .error, r')

section Serves

variable {n : Nat} {out : Except IoError Bytes × ReadAhead ρ} (h : r.Serves n out)

include h

theorem Serves.length_le {data : Bytes} (hok : out.1 = .ok data) : data.length ≤ n := by
  cases h with
  | nothing _ =>
    cases hok
    simp
  | bytes hle _ =>
    cases hok
    exact hle
  | @ending failure _ _ _ _ _ =>
    cases failure with
    | none =>
      cases hok
      simp
    | some e => cases hok

theorem Serves.calm {e : IoError} (herror : out.1 = .error e) : e.kind ≠ .interrupted := by
  cases h with
  | nothing _ => cases herror
  | bytes _ _ => cases herror
  | @ending failure _ _ hcalm _ _ =>
    cases failure with
    | none => cases herror
    | some cause =>
      cases herror
      exact hcalm e rfl

theorem Serves.exists_bytes (hn : 0 < n) (hmore : r.delivered.1 ≠ []) :
    ∃ data, out.1 = .ok data ∧ data ≠ [] := by
  cases h with
  | nothing hzero => exact absurd hzero (Nat.ne_of_gt hn)
  | bytes _ _ => exact ⟨_, rfl, List.cons_ne_nil _ _⟩
  | ending _ _ hend _ => simp [hend] at hmore

theorem Serves.reports (hn : 0 < n) {failure : Option IoError} (hend : r.delivered = ([], failure)) :
    out.1 = failure.elim (.ok []) .error := by
  cases h with
  | nothing hzero => exact absurd hzero (Nat.ne_of_gt hn)
  | bytes _ hbytes => simp [hend] at hbytes
  | ending _ _ hend' _ =>
    rw [hend] at hend'
    cases hend'
    rfl

end Serves

/-- **One read.** -/
theorem serves_read (h : r.IsSound) (n : Nat) : r.Serves n (r.read n) ∧ (r.read n).2.IsSound := by
  rcases Nat.eq_zero_or_pos n with rfl | hn
  · exact ⟨.nothing rfl, h⟩
  have hfilled := h.filled
  obtain ⟨hdelivered, hmore⟩ := r.delivered_filled
  rw [r.read_eq hn]
  cases hblock : r.filled.block with
  | cons b block =>
    obtain ⟨k, rfl⟩ := Nat.exists_eq_succ_of_ne_zero (Nat.ne_of_gt hn)
    have hserve := r.filled.delivered_serve (k + 1)
    have hgiven : (r.filled.serve (k + 1)).1 = b :: block.take k := by
      simp [serve, hblock]
    rw [hdelivered, hgiven] at hserve
    rw [List.isEmpty_cons, if_neg Bool.false_ne_true, hgiven]
    constructor
    · apply Serves.bytes _ hserve
      simp only [List.length_cons, List.length_take]
      omega
    · exact ⟨hfilled.room, hfilled.calm⟩
  | nil =>
    -- an empty block is not followed by another one, or it would have been fetched
    have hreport : r.filled.delivered = behind r.filled.blockSize r.filled.source r.filled.next := by
      rw [delivered, hblock, List.nil_append]
    have hquiet (e : IoError) (he : BlockEnd.ended = .failed e) : e.kind ≠ .interrupted := by cases he
    rw [List.isEmpty_nil, if_pos rfl, report]
    rw [hdelivered] at hreport
    cases hnext : r.filled.next with
    | full => exact absurd (hmore hblock hnext) hfilled.room
    | ended =>
      rw [hnext] at hreport
      refine ⟨.ending hn (by simp) hreport ?_, hfilled.room, hquiet⟩
      simp [delivered, hblock, behind]
    | failed e =>
      have hcalm := hfilled.calm e hnext
      rw [hnext, behind, if_neg hcalm] at hreport
      refine ⟨.ending hn (by simpa using hcalm) hreport ?_, hfilled.room, hquiet⟩
      simp [delivered, hblock, behind]

/-! ### A run of reads -/

/-- How far reads of these sizes have come.  While nothing has been asked for behind
    the bytes, what was returned and what is to come make up the whole. -/
inductive Stage (r : ReadAhead ρ) (sizes : List Nat) : Prop
  | underway : ¬ r.AskedAfter r.delivered.1 sizes →
    r.delivered = (r.returned sizes ++ (r.after sizes).delivered.1, (r.after sizes).delivered.2) →
    Stage r sizes
  | finished : r.AskedAfter r.delivered.1 sizes → r.returned sizes = r.delivered.1 →
    (r.after sizes).delivered = ([], none) → Stage r sizes

theorem Stage.concat {sizes : List Nat} {n : Nat} (h : r.Stage sizes)
    (hserves : (r.after sizes).Serves n ((r.after sizes).read n)) : r.Stage (sizes ++ [n]) := by
  have hasked := @askedAfter_concat_iff _ _ r r.delivered.1 sizes n
  have hafter := @after_concat _ _ r sizes n
  have hreturned := @returned_concat _ _ r sizes n
  generalize (r.after sizes).read n = out at hserves hafter hreturned
  cases h with
  | underway hnever hwhole =>
    have hall : r.returned sizes = r.delivered.1 ↔ (r.after sizes).delivered.1 = [] := by
      rw [hwhole]
      simp
    cases hserves with
    | nothing hn =>
      apply Stage.underway
      · simpa [hn, hnever] using hasked
      · simpa [hafter, hreturned, Except.toOption] using hwhole
    | bytes _ hbytes =>
      apply Stage.underway
      · simp [hasked, hnever, hall, hbytes]
      · rw [hwhole, hbytes]
        simp [hafter, hreturned, Except.toOption]
    | @ending failure _ hn _ hend hlast =>
      rw [hend] at hall
      apply Stage.finished
      · exact hasked.mpr (Or.inr ⟨hn, hall.mpr rfl⟩)
      · cases failure <;> simpa [hreturned, Except.toOption] using hall
      · rw [hafter, hlast]
  | finished hdone hall hend =>
    apply Stage.finished
    · exact hasked.mpr (Or.inl hdone)
    · cases hserves with
      | nothing _ => simpa [hreturned, Except.toOption] using hall
      | bytes _ hbytes => simp [hend] at hbytes
      | @ending failure _ _ _ _ _ => cases failure <;> simpa [hreturned, Except.toOption] using hall
    · cases hserves with
      | nothing _ => rw [hafter, hend]
      | bytes _ hbytes => simp [hend] at hbytes
      | ending _ _ _ hlast => rw [hafter, hlast]

/-- Nothing that was returned was made up, and nothing was left out. -/
theorem Stage.returned_front {sizes : List Nat} (h : r.Stage sizes) : r.returned sizes <+: r.delivered.1 := by
  cases h with
  | underway _ hwhole =>
    rw [hwhole]
    exact List.prefix_append _ _
  | finished _ hall _ => exact hall ▸ List.prefix_rfl

theorem Stage.more_of_ne {sizes : List Nat} (h : r.Stage sizes) (hne : r.returned sizes ≠ r.delivered.1) :
    (r.after sizes).delivered.1 ≠ [] := by
  cases h with
  | underway _ hwhole =>
    rw [hwhole] at hne
    simpa using hne
  | finished _ hall _ => exact absurd hall hne

theorem Stage.ending_of_eq {sizes : List Nat} (h : r.Stage sizes) (hall : r.returned sizes = r.delivered.1)
    (hnever : ¬ r.AskedAfter r.delivered.1 sizes) : (r.after sizes).delivered = ([], r.delivered.2) := by
  cases h with
  | underway _ hwhole =>
    have hnone : (r.after sizes).delivered.1 = [] := by
      rw [hwhole] at hall
      simpa using hall
    rw [hwhole, ← hnone]
  | finished hdone _ _ => exact absurd hdone hnever

theorem Stage.finished_of_asked {sizes : List Nat} (h : r.Stage sizes) (hasked : r.AskedAfter r.delivered.1 sizes) :
    r.returned sizes = r.delivered.1 ∧ (r.after sizes).delivered = ([], none) := by
  cases h with
  | underway hnever _ => exact absurd hasked hnever
  | finished _ hall hend => exact ⟨hall, hend⟩

theorem Stage.nothing_of_nothing {sizes : List Nat} (h : r.Stage sizes) (hnone : r.delivered = ([], none)) :
    (r.after sizes).delivered = ([], none) := by
  cases h with
  | underway _ hwhole =>
    rw [hnone, eq_comm, Prod.mk.injEq, List.append_eq_nil_iff] at hwhole
    exact Prod.ext hwhole.1.2 hwhole.2
  | finished _ _ hend => exact hend

/-- **All reads.** -/
theorem stage_after (h : r.IsSound) (sizes : List Nat) : r.Stage sizes ∧ (r.after sizes).IsSound := by
  induction sizes using List.reverseRecOn with
  | nil =>
    refine ⟨.underway ?_ rfl, h⟩
    rintro ⟨earlier, n, later, heq, -⟩
    simp at heq
  | append_singleton sizes n ih =>
    obtain ⟨hserves, hsound⟩ := serves_read ih.2 n
    rw [after_concat]
    exact ⟨ih.1.concat hserves, hsound⟩

theorem serves_after (h : r.IsSound) (sizes : List Nat) (n : Nat) :
    r.Stage sizes ∧ (r.after sizes).Serves n ((r.after sizes).read n) := by
  obtain ⟨hstage, hafter⟩ := stage_after h sizes
  exact ⟨hstage, (serves_read hafter n).1⟩

/-! ### Scripts -/

/-- **Reading ahead gives the bytes of the source as long as a block can be
    allocated.**  However a scripted reader gives its bytes, however large the blocks
    are up to that limit and whatever is asked for: what has been returned is the front
    of what the script delivers.  A read returns no more than it was asked for, and
    something as long as there is something; asked for nothing it changes nothing.
    Behind the bytes the first read reports how the script ended, and all others find
    the end.  No interruption is ever reported.  With longer blocks every read finds the
    end, whatever there is to read. -/
theorem reads_give_delivered (script : Script) {blockSize : Nat} (hsize : 0 < blockSize) :
    ∃ ahead, new script blockSize = .ok ahead ∧
      (blockSize ≤ longestBlock → ∀ sizes n,
        let given := ahead.returned sizes
        let result := ((ahead.after sizes).read n).1
        let whole := script.delivered
        given <+: whole.1 ∧
        (∀ data, result = .ok data → data.length ≤ n) ∧
        (ahead.after sizes).read 0 = (.ok [], ahead.after sizes) ∧
        (0 < n → given ≠ whole.1 → ∃ data, result = .ok data ∧ data ≠ []) ∧
        (0 < n → given = whole.1 → ¬ ahead.AskedAfter whole.1 sizes →
          result = whole.2.elim (.ok []) .error) ∧
        (0 < n → ahead.AskedAfter whole.1 sizes → given = whole.1 ∧ result = .ok []) ∧
        ∀ e, result = .error e → e.kind ≠ .interrupted) ∧
      (longestBlock < blockSize → ∀ sizes n, ((ahead.after sizes).read n).1 = .ok []) := by
  obtain ⟨ahead, hnew, hwhole⟩ := delivered_new script hsize
  change ahead.delivered = if _ then script.delivered else _ at hwhole
  have hsound := isSound_of_new hsize hnew
  refine ⟨ahead, hnew, ?_, ?_⟩
  · intro hfits sizes n given result whole
    obtain ⟨hstage, hserves⟩ := serves_after hsound sizes n
    rw [if_pos hfits] at hwhole
    have hsame : whole = ahead.delivered := hwhole.symm
    clear_value whole
    subst hsame
    refine ⟨hstage.returned_front, ?_, rfl, ?_, ?_, ?_, ?_⟩
    · intro data hok
      exact hserves.length_le hok
    · intro hn hne
      exact hserves.exists_bytes hn (hstage.more_of_ne hne)
    · intro hn hall hnever
      exact hserves.reports hn (hstage.ending_of_eq hall hnever)
    · intro hn hasked
      obtain ⟨hall, hend⟩ := hstage.finished_of_asked hasked
      exact ⟨hall, hserves.reports hn hend⟩
    · intro e herror
      exact hserves.calm herror
  · intro hlong sizes n
    obtain ⟨hstage, hserves⟩ := serves_after hsound sizes n
    rw [if_neg (Nat.not_le_of_lt hlong)] at hwhole
    rcases Nat.eq_zero_or_pos n with rfl | hn
    · rfl
    · exact hserves.reports hn (hstage.nothing_of_nothing hwhole)

/-- The bytes fill two blocks, and the failure is met when the second is full. -/
theorem reads_give_delivered_breakingOff : 0 < 2 ∧ ∃ ahead, new breakingOff 2 = .ok ahead ∧
    ∀ sizes n, ahead.returned sizes <+: [1, 2, 3, 4] ∧
      (0 < n → ahead.returned sizes = [1, 2, 3, 4] → ¬ ahead.AskedAfter [1, 2, 3, 4] sizes →
        ((ahead.after sizes).read n).1 = .error ⟨.other, "broken off"⟩) := by
  have hsize : 0 < 2 := by decide
  have hfits : 2 ≤ longestBlock := by decide
  have hwhole : breakingOff.delivered = ([1, 2, 3, 4], some ⟨.other, "broken off"⟩) := rfl
  obtain ⟨ahead, hnew, hreads, -⟩ := reads_give_delivered breakingOff hsize
  refine ⟨hsize, ahead, hnew, ?_⟩
  intro sizes n
  obtain ⟨hfront, -, -, -, hreport, -, -⟩ := hreads hfits sizes n
  rw [hwhole] at hfront hreport
  exact ⟨hfront, hreport⟩

/-- The largest word as the block size: the first read finds the end, though nothing
    has been returned and the script delivers five bytes. -/
theorem reads_lose_largestWord : 0 < 2 ^ 64 - 1 ∧ ∃ ahead, new hello (2 ^ 64 - 1) = .ok ahead ∧
    ahead.returned [] ≠ hello.delivered.1 ∧ (ahead.read 16).1 = .ok [] := by
  refine ⟨by decide, ⟨hello, 2 ^ 64 - 1, [], .full⟩, rfl, ?_, rfl⟩
  intro h
  cases h

end DedupArchive.ReadAhead
