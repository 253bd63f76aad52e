/-
  DedupArchive/Proofs/Catalog/Edits.lean
  ======================================
  **Edits by hand keep the rules.**

  Whoever edits the tables behind the library still goes through their rules.
  Each row that is added or changed is checked by itself and against all others,
  and a column turns no value into a number that does not fit.  So a lawful
  catalog stays lawful under every edit, whatever cells are written; what may be
  lost is that every chunk has its archive.
-/
import DedupArchive.Catalog.Edit
import DedupArchive.Proofs.Catalog.Answers
import DedupArchive.Proofs.Catalog.Rules

namespace DedupArchive

/-! ### Numbers that a column makes -/

theorem Cell.isWord_wholeReal (q : Rat) : (Cell.wholeReal q).isWord = true := by
  rw [wholeReal]
  split
  · rename_i hwhole
    simp only [isWord, Bool.and_eq_true, decide_eq_true_eq]
    exact ⟨le_of_lt hwhole.2.1, le_of_lt hwhole.2.2⟩
  · rfl

theorem Cell.isWord_of_number? {text : String} {c : Cell} (h : Cell.number? text = some c) :
    c.isWord = true := by
  -- an integer is made only behind a test of its size
  have hmade {fits : Bool} {value : Int} {q : Rat} (hfits : fits = true → isWord (.integer value) = true)
      (h : (if fits then some (Cell.integer value) else some (.real q)) = some c) : c.isWord = true := by
    split at h
    · rename_i hfit
      cases h
      exact hfits hfit
    · cases h
      rfl
  simp only [number?] at h
  split at h
  · cases h
  · split at h
    · cases h
    · refine hmade ?_ h
      simp only [isWord, Bool.and_eq_true, decide_eq_true_eq]
      rintro ⟨⟨-, hmin⟩, hmax⟩
      exact ⟨hmin, hmax⟩

/-- A column makes no number that does not fit. -/
theorem Affinity.isWord_apply (a : Affinity) {c : Cell} (h : c.isWord = true) :
    (a.apply c).isWord = true := by
  rcases a with _ | _ | _
  · rcases c with _ | i | q | t | b
    · rfl
    · exact h
    · exact Cell.isWord_wholeReal q
    · simp only [apply]
      split
      · exact Cell.isWord_wholeReal _
      · rename_i hnumber
        exact Cell.isWord_of_number? hnumber
      · rfl
    · rfl
  · rcases c with _ | i | q | t | b <;> rfl
  · exact h

/-! ### Rows that are written cell by cell -/

theorem ArchiveRow.isWord_set {r r' : ArchiveRow} {column : ArchiveColumn} {value : Cell}
    (h : r.set column value = .ok r') (hvalue : value.isWord = true) (hr : r.length.isWord = true) :
    r'.length.isWord = true := by
  rcases column with _ | _ | _ | _
  · simp only [set] at h
    split at h
    · cases h
      exact hr
    · cases h
  · cases h
    exact hr
  · cases h
    exact Affinity.isWord_apply _ hvalue
  · cases h
    exact hr

theorem ArchiveRow.isWord_foldlM_set {cells : List (ArchiveColumn × Cell)} {r r' : ArchiveRow}
    (h : cells.foldlM (fun row (column, value) => row.set column value) r = .ok r')
    (hcells : ∀ cell ∈ cells, cell.2.isWord = true) (hr : r.length.isWord = true) :
    r'.length.isWord = true := by
  induction cells generalizing r with
  | nil =>
    cases h
    exact hr
  | cons cell rest ih =>
    rw [List.foldlM_cons] at h
    obtain ⟨row, hset, hrest⟩ := bind_eq_ok_iff.mp h
    apply ih hrest
    · intro other hother
      exact hcells other (List.mem_cons_of_mem cell hother)
    · exact isWord_set hset (hcells cell List.mem_cons_self) hr

theorem ChunkRow.isWord_set {r : ChunkRow} {column : ChunkColumn} {value : Cell}
    (hvalue : value.isWord = true) (hr : r.offset.isWord = true ∧ r.length.isWord = true) :
    (r.set column value).offset.isWord = true ∧ (r.set column value).length.isWord = true := by
  rcases column with _ | _ | _ | _
  · exact hr
  · exact hr
  · exact ⟨Affinity.isWord_apply _ hvalue, hr.2⟩
  · exact ⟨hr.1, Affinity.isWord_apply _ hvalue⟩

theorem ChunkRow.isWord_foldl_set {cells : List (ChunkColumn × Cell)} {r : ChunkRow}
    (hcells : ∀ cell ∈ cells, cell.2.isWord = true)
    (hr : r.offset.isWord = true ∧ r.length.isWord = true) :
    (cells.foldl (fun row (column, value) => row.set column value) r).offset.isWord = true ∧
      (cells.foldl (fun row (column, value) => row.set column value) r).length.isWord = true := by
  induction cells generalizing r with
  | nil => exact hr
  | cons cell rest ih =>
    rw [List.foldl_cons]
    apply ih
    · intro other hother
      exact hcells other (List.mem_cons_of_mem cell hother)
    · exact isWord_set (hcells cell List.mem_cons_self) hr

/-! ### Rows that are changed one after the other -/

section Update

variable {α : Type} {chosen : α → Bool} {change : α → List α → Except CatalogError α}
  {R : α → α → Prop} {P : α → Prop}

/-- Each row is changed beside the changed rows before it and the old ones after
    it, so what relates it to all of those relates any two rows in the end. -/
theorem updateRows_keeps (hsymm : ∀ {x y}, R x y → R y x)
    (hchange : ∀ row others row', P row → change row others = .ok row' → P row' ∧ ∀ o ∈ others, R o row')
    {done rows rows' : List α} {count : Nat}
    (h : updateRows chosen change done rows = .ok (count, rows'))
    (hP : ∀ row ∈ done ++ rows, P row) (hR : (done ++ rows).Pairwise R) :
    (∀ row ∈ rows', P row) ∧ rows'.Pairwise R := by
  induction rows generalizing done count with
  | nil =>
    cases h
    rw [List.append_nil] at hP hR
    constructor
    · intro row hrow
      exact hP row (List.mem_reverse.mp hrow)
    · rw [List.pairwise_reverse]
      exact hR.imp hsymm
  | cons row rest ih =>
    have hmiddle : (done ++ row :: rest).Perm (row :: (done ++ rest)) := List.perm_middle
    have hothers := List.pairwise_cons.mp ((hmiddle.pairwise_iff hsymm).mp hR)
    have hPothers : P row ∧ ∀ o ∈ done ++ rest, P o := by
      rw [← List.forall_mem_cons]
      intro o ho
      exact hP o (hmiddle.mem_iff.mpr ho)
    rw [updateRows] at h
    split at h
    · obtain ⟨new, hnew, h⟩ := bind_eq_ok_iff.mp h
      obtain ⟨⟨count', changed⟩, hrest, heq⟩ := bind_eq_ok_iff.mp h
      cases heq
      obtain ⟨hPnew, hRnew⟩ := hchange row (done ++ rest) new hPothers.1 hnew
      apply ih hrest
      · rw [List.cons_append, List.forall_mem_cons]
        exact ⟨hPnew, hPothers.2⟩
      · rw [List.cons_append, List.pairwise_cons]
        exact ⟨fun o ho => hsymm (hRnew o ho), hothers.2⟩
    · apply ih h
      · rw [List.cons_append, List.forall_mem_cons]
        exact hPothers
      · rw [List.cons_append, List.pairwise_cons]
        exact hothers

end Update

namespace Catalog.Lawful

variable {c c' : Catalog} (h : c.Lawful)

include h

/-! ### Rows that are added -/

theorem addArchive {r : ArchiveRow} (hword : r.length.isWord = true) (hadd : c.addArchive r = .ok c') :
    c'.Lawful := by
  obtain ⟨⟨⟩, hrule, hadd⟩ := bind_eq_ok_iff.mp hadd
  obtain ⟨⟨⟩, hunique, heq⟩ := bind_eq_ok_iff.mp hadd
  cases heq
  rw [ArchiveRow.checkUnique_eq_ok_iff] at hunique
  constructor
  · exact List.forall_mem_cons.mpr ⟨hrule, h.archive_rules⟩
  · exact h.chunk_rules
  · refine List.pairwise_cons.mpr ⟨?_, h.ids⟩
    intro o ho
    exact (hunique o ho).1.symm
  · refine List.pairwise_cons.mpr ⟨?_, h.names⟩
    intro o ho
    rw [Cell.equals_comm]
    exact (hunique o ho).2
  · exact h.places
  · exact List.forall_mem_cons.mpr ⟨hword, h.archive_words⟩
  · exact h.chunk_words

theorem addChunk {r : ChunkRow} (hword : r.offset.isWord = true ∧ r.length.isWord = true)
    (hadd : c.addChunk r = .ok c') : c'.Lawful := by
  obtain ⟨⟨⟩, hrule, hadd⟩ := bind_eq_ok_iff.mp hadd
  obtain ⟨⟨⟩, hunique, heq⟩ := bind_eq_ok_iff.mp hadd
  cases heq
  rw [ChunkRow.checkUnique_eq_ok_iff] at hunique
  constructor
  · exact h.archive_rules
  · exact List.forall_mem_cons.mpr ⟨hrule, h.chunk_rules⟩
  · exact h.ids
  · exact h.names
  · refine List.pairwise_cons.mpr ⟨?_, h.places⟩
    intro o ho
    rw [Cell.equals_comm r.archive, Cell.equals_comm r.offset]
    exact hunique o ho
  · exact h.archive_words
  · exact List.forall_mem_cons.mpr ⟨hword, h.chunk_words⟩

/-! ### The edits -/

theorem editInsertArchive {cells : List (ArchiveColumn × Cell)}
    (hcells : ∀ cell ∈ cells, cell.2.isWord = true) (hedit : c.editInsertArchive cells = .ok c') :
    c'.Lawful := by
  obtain ⟨row, hrow, hadd⟩ := bind_eq_ok_iff.mp hedit
  refine h.addArchive (ArchiveRow.isWord_foldlM_set hrow ?_ rfl) hadd
  intro cell hcell
  exact hcells cell (List.mem_filter.mp hcell).1

theorem editInsertChunk {cells : List (ChunkColumn × Cell)}
    (hcells : ∀ cell ∈ cells, cell.2.isWord = true) (hedit : c.editInsertChunk cells = .ok c') :
    c'.Lawful :=
  h.addChunk (ChunkRow.isWord_foldl_set hcells ⟨rfl, rfl⟩) hedit

theorem editUpdateArchives {wanted values : List (ArchiveColumn × Cell)} {count : Nat}
    (hvalues : ∀ cell ∈ values, cell.2.isWord = true)
    (hedit : c.editUpdateArchives wanted values = .ok (count, c')) : c'.Lawful := by
  obtain ⟨⟨count, archives⟩, hupdate, heq⟩ := bind_eq_ok_iff.mp hedit
  cases heq
  have hperm := List.mergeSort_perm c.archives fun a b => a.id ≤ b.id
  have hapart : c.archives.Pairwise fun a b => a.id ≠ b.id ∧ a.name.equals b.name = false :=
    h.ids.and h.names
  have hsymm {x y : ArchiveRow} (hxy : x.id ≠ y.id ∧ x.name.equals y.name = false) :
      y.id ≠ x.id ∧ y.name.equals x.name = false := ⟨hxy.1.symm, Cell.equals_comm .. ▸ hxy.2⟩
  obtain ⟨hrows, hpairs⟩ := @updateRows_keeps _ _ _
    (fun a b : ArchiveRow => a.id ≠ b.id ∧ a.name.equals b.name = false)
    (fun r : ArchiveRow => r.check = .ok () ∧ r.length.isWord = true) hsymm
    (by
      intro row others row' hrow hchange
      obtain ⟨new, hset, hchange⟩ := bind_eq_ok_iff.mp hchange
      obtain ⟨⟨⟩, hrule, hchange⟩ := bind_eq_ok_iff.mp hchange
      obtain ⟨⟨⟩, hunique, heq⟩ := bind_eq_ok_iff.mp hchange
      cases heq
      exact ⟨⟨hrule, ArchiveRow.isWord_foldlM_set hset hvalues hrow.2⟩,
        ArchiveRow.checkUnique_eq_ok_iff.mp hunique⟩)
    [] _ _ _ hupdate
    (fun row hrow => ⟨h.archive_rules row (hperm.mem_iff.mp hrow), h.archive_words row (hperm.mem_iff.mp hrow)⟩)
    ((hperm.pairwise_iff hsymm).mpr hapart)
  constructor
  · exact fun r hr => (hrows r hr).1
  · exact h.chunk_rules
  · exact hpairs.imp And.left
  · exact hpairs.imp And.right
  · exact h.places
  · exact fun r hr => (hrows r hr).2
  · exact h.chunk_words

theorem editUpdateChunks {wanted values : List (ChunkColumn × Cell)} {count : Nat}
    (hvalues : ∀ cell ∈ values, cell.2.isWord = true)
    (hedit : c.editUpdateChunks wanted values = .ok (count, c')) : c'.Lawful := by
  obtain ⟨⟨count, chunks⟩, hupdate, heq⟩ := bind_eq_ok_iff.mp hedit
  cases heq
  obtain ⟨hrows, hpairs⟩ := @updateRows_keeps _ _ _
    (fun a b : ChunkRow => (a.archive.equals b.archive && a.offset.equals b.offset) = false)
    (fun r : ChunkRow => r.check = .ok () ∧ r.offset.isWord = true ∧ r.length.isWord = true)
    (by
      intro x y hxy
      rw [Cell.equals_comm y.archive, Cell.equals_comm y.offset]
      exact hxy)
    (by
      intro row others row' hrow hchange
      obtain ⟨⟨⟩, hrule, hchange⟩ := bind_eq_ok_iff.mp hchange
      obtain ⟨⟨⟩, hunique, heq⟩ := bind_eq_ok_iff.mp hchange
      cases heq
      exact ⟨⟨hrule, ChunkRow.isWord_foldl_set hvalues hrow.2⟩,
        ChunkRow.checkUnique_eq_ok_iff.mp hunique⟩)
    [] _ _ _ hupdate (fun row hrow => ⟨h.chunk_rules row hrow, h.chunk_words row hrow⟩) h.places
  constructor
  · exact h.archive_rules
  · exact fun r hr => (hrows r hr).1
  · exact h.ids
  · exact h.names
  · exact hpairs
  · exact h.archive_words
  · exact fun r hr => (hrows r hr).2

theorem editDeleteArchives (wanted : List (ArchiveColumn × Cell)) :
    (c.editDeleteArchives wanted).2.Lawful where
  archive_rules r hr := h.archive_rules r (List.mem_filter.mp hr).1
  chunk_rules := h.chunk_rules
  ids := h.ids.filter _
  names := h.names.filter _
  places := h.places
  archive_words r hr := h.archive_words r (List.mem_filter.mp hr).1
  chunk_words := h.chunk_words

theorem editDeleteChunks (wanted : List (ChunkColumn × Cell)) :
    (c.editDeleteChunks wanted).2.Lawful where
  archive_rules := h.archive_rules
  chunk_rules r hr := h.chunk_rules r (List.mem_filter.mp hr).1
  ids := h.ids
  names := h.names
  places := h.places.filter _
  archive_words := h.archive_words
  chunk_words r hr := h.chunk_words r (List.mem_filter.mp hr).1

end Catalog.Lawful

end DedupArchive
