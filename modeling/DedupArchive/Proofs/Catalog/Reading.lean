/-
  DedupArchive/Proofs/Catalog/Reading.lean
  ========================================
  **What the answers of a catalog consist of.**

  A row can be read when its cells are what their columns are meant for, and a
  record says exactly what those cells are.  The questions sort rows, drop
  repetitions and add up lengths before they read; here each of them is said as
  membership, so that nothing later depends on how an answer is ordered.
-/
import DedupArchive.Proofs.Catalog.Answers
import DedupArchive.Proofs.Catalog.Rules

namespace DedupArchive

/-! ### Cells -/

namespace Cell

variable {index : Nat} {column : String} {c : Cell}

theorem toText_eq_ok_iff {t : String} : c.toText index column = .ok t ↔ c = .text t := by
  cases c <;> simp [toText]

theorem toNatural_eq_ok_iff {n : Nat} : c.toNatural index column = .ok n ↔ c = .integer n := by
  cases c with
  | integer value =>
    rw [toNatural, bind_eq_ok_iff]
    simp only [toInteger, Except.ok.injEq, exists_eq_left', Cell.integer.injEq]
    split
    · constructor
      · intro h
        cases h
      · intro h
        omega
    · rw [Except.ok.injEq]
      omega
  | null | real _ | text _ | blob _ =>
    constructor <;> intro h <;> cases h

theorem toDigest_eq_ok_iff {d : Digest} : c.toDigest index column = .ok d ↔ c = d.cell := by
  cases c with
  | blob value =>
    rw [toDigest, Digest.ofBytes?, Digest.cell, Cell.blob.injEq]
    by_cases hsize : value.length = digestSize
    · simp only [dif_pos hsize, Except.ok.injEq]
      constructor
      · rintro rfl
        rfl
      · intro h
        exact Digest.ext_bytes h
    · simp only [dif_neg hsize, reduceCtorEq, false_iff]
      rintro rfl
      exact hsize d.length_bytes
  | null | integer _ | real _ | text _ =>
    constructor <;> intro h <;> cases h

end Cell

/-! ### Rows -/

def ArchiveRecord.row (a : ArchiveRecord) : ArchiveRow :=
  ⟨a.id, .text a.name, .integer a.length, a.digest.cell⟩

theorem ArchiveRow.toRecord_eq_ok_iff {r : ArchiveRow} {a : ArchiveRecord} :
    r.toRecord = .ok a ↔ r = a.row := by
  obtain ⟨id, name, length, digest⟩ := r
  simp only [toRecord, bind_eq_ok_iff, Cell.toText_eq_ok_iff, Cell.toNatural_eq_ok_iff,
    Cell.toDigest_eq_ok_iff, ArchiveRecord.row, ArchiveRow.mk.injEq]
  constructor
  · rintro ⟨n, rfl, l, rfl, d, rfl, h⟩
    cases h
    exact ⟨rfl, rfl, rfl, rfl⟩
  · rintro ⟨rfl, rfl, rfl, rfl⟩
    exact ⟨_, rfl, _, rfl, _, rfl, rfl⟩

theorem ArchiveRecord.row_inj {a a' : ArchiveRecord} (h : a.row = a'.row) : a = a' := by
  have hread := ArchiveRow.toRecord_eq_ok_iff.mpr h
  rw [ArchiveRow.toRecord_eq_ok_iff.mpr rfl, Except.ok.injEq] at hread
  exact hread

theorem ArchiveRecord.isComplete_row (a : ArchiveRecord) : a.row.isComplete = true := rfl

/-- Whether a row is that of an archive which has only its name yet, or length and
    digest as well. -/
def ArchiveRow.IsReadable (r : ArchiveRow) : Prop :=
  (∃ id name, r = ⟨id, .text name, .null, .null⟩) ∨ ∃ a : ArchiveRecord, r = a.row

theorem ArchiveRow.IsReadable.exists_name {r : ArchiveRow} (h : r.IsReadable) :
    ∃ name, r.name = .text name := by
  rcases h with ⟨id, name, rfl⟩ | ⟨a, rfl⟩
  · exact ⟨name, rfl⟩
  · exact ⟨a.name, rfl⟩

theorem ArchiveRow.IsReadable.exists_record {r : ArchiveRow} (h : r.IsReadable)
    (hlength : r.length.isNull = false) : ∃ a : ArchiveRecord, r = a.row := by
  rcases h with ⟨id, name, rfl⟩ | h
  · cases hlength
  · exact h

theorem ChunkRow.toRecord_eq_ok_iff {r : ChunkRow} {row : ChunkRecord} : r.toRecord = .ok row ↔
    r.digest = row.digest.cell ∧ r.offset = .integer row.offset ∧ r.length = .integer row.length := by
  simp only [toRecord, bind_eq_ok_iff, Cell.toNatural_eq_ok_iff, Cell.toDigest_eq_ok_iff]
  constructor
  · rintro ⟨d, hd, o, ho, l, hl, h⟩
    cases h
    exact ⟨hd, ho, hl⟩
  · rintro ⟨hd, ho, hl⟩
    exact ⟨_, hd, _, ho, _, hl, rfl⟩

/-! ### Runs -/

section Runs

variable {α : Type} {same : α → α → Bool} {kept : α} {rows : List α} {x : α}

theorem mem_of_mem_dropRepeats (h : x ∈ dropRepeats same kept rows) : x ∈ rows := by
  induction rows generalizing kept with
  | nil => cases h
  | cons y rest ih =>
    rw [dropRepeats] at h
    split at h
    · exact List.mem_cons_of_mem y (ih h)
    · rcases List.mem_cons.mp h with rfl | h
      · exact List.mem_cons_self
      · exact List.mem_cons_of_mem y (ih h)

theorem mem_of_mem_firstOfRuns (h : x ∈ firstOfRuns same rows) : x ∈ rows := by
  cases rows with
  | nil => cases h
  | cons y rest =>
    rcases List.mem_cons.mp h with rfl | h
    · exact List.mem_cons_self
    · exact List.mem_cons_of_mem y (mem_of_mem_dropRepeats h)

/-- What is dropped is the same as something that is kept. -/
theorem exists_same_of_mem_dropRepeats (hrefl : ∀ y, same y y = true) (h : x ∈ rows) :
    ∃ y ∈ kept :: dropRepeats same kept rows, same y x = true := by
  induction rows generalizing kept with
  | nil => cases h
  | cons z rest ih =>
    rw [dropRepeats]
    split
    · rename_i hsame
      rcases List.mem_cons.mp h with rfl | h
      · exact ⟨kept, List.mem_cons_self, hsame⟩
      · exact ih h
    · rcases List.mem_cons.mp h with rfl | h
      · exact ⟨x, List.mem_cons_of_mem _ List.mem_cons_self, hrefl x⟩
      · obtain ⟨y, hy, hsame⟩ := ih h
        exact ⟨y, List.mem_cons_of_mem _ hy, hsame⟩

theorem exists_same_of_mem_firstOfRuns (hrefl : ∀ y, same y y = true) (h : x ∈ rows) :
    ∃ y ∈ firstOfRuns same rows, same y x = true := by
  cases rows with
  | nil => cases h
  | cons z rest =>
    rcases List.mem_cons.mp h with rfl | h
    · exact ⟨x, List.mem_cons_self, hrefl x⟩
    · exact exists_same_of_mem_dropRepeats hrefl h

end Runs

end DedupArchive
