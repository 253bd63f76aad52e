/-
  DedupArchive/Proofs/Catalog/Growth.lean
  =======================================
  **A catalog with one archive more.**

  An archive is entered in steps: a row without length and digest, a row for
  each chunk, then length and digest.  A catalog that keeps the rules refuses none
  of them, since the id is new, the chunks lie side by side and the numbers fit.
  What comes out is the catalog with one archive more (`enter`); it keeps the
  rules, and the archives that were there before do not notice.
-/
import DedupArchive.Catalog.Transaction
import DedupArchive.Proofs.Catalog.Questions

namespace DedupArchive

/-! ### Words -/

/-- As a signed number, a word of the upper half is negative. -/
theorem toInt_signed (word : UInt64) :
    word.toInt64.toInt = if word.toNat < 2 ^ 63 then (word.toNat : Int) else word.toNat - 2 ^ 64 := by
  show word.toBitVec.toInt = _
  rw [BitVec.toInt_eq_toNat_cond, UInt64.toNat_toBitVec]
  split <;> split <;> omega

theorem signedCell_eq {word : UInt64} (h : word.toNat < 2 ^ 63) : signedCell word = .integer word.toNat := by
  rw [signedCell, toInt_signed, if_pos h]

theorem atLeastZero_signedCell_iff {word : UInt64} :
    (signedCell word).atLeastZero = true ↔ word.toNat < 2 ^ 63 := by
  have hword := word.toNat_lt
  rw [signedCell, Cell.atLeastZero_integer_iff, toInt_signed]
  split <;> omega

theorem aboveZero_signedCell_iff {word : UInt64} :
    (signedCell word).aboveZero = true ↔ 0 < word.toNat ∧ word.toNat < 2 ^ 63 := by
  have hword := word.toNat_lt
  rw [signedCell, Cell.aboveZero_integer_iff, toInt_signed]
  split <;> omega

theorem signedCell_ofNat {n : Nat} (h : n < 2 ^ 63) : signedCell (UInt64.ofNat n) = .integer n := by
  have hword : (UInt64.ofNat n).toNat = n := UInt64.toNat_ofNat_of_lt' (h.trans (by decide))
  rw [signedCell_eq (by omega), hword]

namespace Catalog

variable {c : Catalog}

/-! ### Single steps -/

/-- The next id is larger than all that are there. -/
theorem lt_nextId {r : ArchiveRow} (hr : r ∈ c.archives) : r.id < c.nextId := by
  have hmem : r.id ∈ c.archives.map (·.id) := List.mem_map.mpr ⟨r, hr, rfl⟩
  rw [nextId]
  cases hmax : (c.archives.map (·.id)).max? with
  | none =>
    rw [List.max?_eq_none_iff] at hmax
    rw [hmax] at hmem
    cases hmem
  | some largest =>
    have := (List.max?_eq_some_iff.mp hmax).2 r.id hmem
    show r.id < largest + 1
    omega

theorem ne_nextId {r : ArchiveRow} (hr : r ∈ c.archives) : r.id ≠ c.nextId :=
  Int.ne_of_lt (lt_nextId hr)

/-- An archive is added under the next id, and nothing else changes. -/
theorem added_of_insertArchive {c' : Catalog} {name : String} {id : Int}
    (hinsert : c.insertArchive name = .ok (id, c')) : id = c.nextId ∧
      c' = { c with archives := ⟨c.nextId, .text name, .null, .null⟩ :: c.archives } := by
  obtain ⟨c₁, hadd, heq⟩ := bind_eq_ok_iff.mp hinsert
  obtain ⟨-, -, hadd⟩ := bind_eq_ok_iff.mp hadd
  obtain ⟨-, -, hadd⟩ := bind_eq_ok_iff.mp hadd
  cases hadd
  cases heq
  exact ⟨rfl, rfl⟩

theorem insertArchive_eq {name : String} (hname : c.archiveId? name = none) :
    c.insertArchive name =
      .ok (c.nextId, { c with archives := ⟨c.nextId, .text name, .null, .null⟩ :: c.archives }) := by
  have hunique : ArchiveRow.checkUnique ⟨c.nextId, .text name, .null, .null⟩ c.archives = .ok () := by
    rw [ArchiveRow.checkUnique_eq_ok_iff]
    intro o ho
    refine ⟨ne_nextId ho, ?_⟩
    rw [← Bool.not_eq_true, Cell.equals_text_iff]
    exact archiveId?_eq_none_iff.mp hname o ho
  rw [insertArchive, addArchive, hunique]
  rfl

theorem insertChunk_eq {id : Int} {d : Digest} {offset length : Nat} (hoffset : offset < 2 ^ 63)
    (hlength : length < 2 ^ 63) (hpositive : 0 < length)
    (hplace : ∀ r ∈ c.chunks, r.archive.equals (.integer id) = true →
      r.offset.equals (.integer offset) = false)
    (harchive : ∃ r ∈ c.archives, r.id = id) :
    c.insertChunk id d (UInt64.ofNat offset) (UInt64.ofNat length) =
      .ok { c with chunks := ⟨.integer id, d.cell, .integer offset, .integer length⟩ :: c.chunks } := by
  have hrule : ChunkRow.check ⟨.integer id, d.cell, .integer offset, .integer length⟩ = .ok () := by
    rw [ChunkRow.check_eq_ok_iff, Cell.atLeastZero_integer_iff, Cell.aboveZero_integer_iff]
    exact ⟨rfl, rfl, rfl, rfl, Int.natCast_nonneg offset, Int.natCast_pos.mpr hpositive⟩
  have hunique : ChunkRow.checkUnique ⟨.integer id, d.cell, .integer offset, .integer length⟩
      c.chunks = .ok () := by
    rw [ChunkRow.checkUnique_eq_ok_iff]
    intro o ho
    cases hequals : o.archive.equals (.integer id) with
    | false => rfl
    | true => exact hplace o ho hequals
  have hthere : c.archives.any (·.id == id) = true := by
    obtain ⟨r, hr, hid⟩ := harchive
    rw [List.any_eq_true]
    exact ⟨r, hr, beq_iff_eq.mpr hid⟩
  rw [insertChunk, signedCell_ofNat hoffset, signedCell_ofNat hlength, addChunk, hrule, hunique]
  show (if c.archives.any (·.id == id) then _ else _) = _
  rw [if_pos hthere]
  rfl

/-- Length and digest are recorded in the first row, if no other has its id. -/
theorem finalize_eq {id : Int} {name length digest : Cell} {rest : List ArchiveRow}
    (harchives : c.archives = ⟨id, name, length, digest⟩ :: rest) (hname : name.isNull = false)
    (hrest : ∀ r ∈ rest, r.id ≠ id) {size : Nat} (hsize : size < 2 ^ 63) (d : Digest) :
    c.finalize id (UInt64.ofNat size) d =
      .ok { c with archives := ⟨id, name, .integer size, d.cell⟩ :: rest } := by
  have hrule : ArchiveRow.check ⟨id, name, .integer size, d.cell⟩ = .ok () := by
    rw [ArchiveRow.check_eq_ok_iff, Cell.atLeastZero_integer_iff]
    exact ⟨hname, Int.natCast_nonneg size⟩
  have hsame : rest.mapM (fun row => if row.id = id then do
      let row := { row with length := signedCell (UInt64.ofNat size), digest := d.cell }
      row.check
      return row
    else return row) = (Except.ok rest : Except CatalogError _) := by
    rw [mapM_eq_ok_iff, List.forall₂_same]
    intro r hr
    rw [if_neg (hrest r hr)]
    rfl
  rw [finalize, harchives, List.mapM_cons, hsame, if_pos rfl, signedCell_ofNat hsize]
  dsimp only
  rw [hrule]
  rfl

/-! ### A whole archive -/

def layout (id : Int) : Nat → List Bytes → List ChunkRow
  | _, [] => []
  | position, data :: rest =>
    ⟨.integer id, (Digest.of data).cell, .integer position, .integer data.length⟩ ::
      layout id (position + data.length) rest

def enter (c : Catalog) (a : ArchiveRecord) (parts : List Bytes) : Catalog where
  archives := a.row :: c.archives
  chunks := (layout a.id 0 parts).reverse ++ c.chunks

section Layout

variable {id : Int} {position : Nat} {parts : List Bytes}

theorem layout_append (more : List Bytes) : layout id position (parts ++ more) =
    layout id position parts ++ layout id (position + parts.flatten.length) more := by
  induction parts generalizing position with
  | nil => rfl
  | cons data rest ih =>
    rw [List.cons_append, layout, layout, ih, List.cons_append, List.flatten_cons,
      List.length_append, Nat.add_assoc]

/-- Every row of a layout is a part with its place. -/
theorem exists_of_mem_layout {r : ChunkRow} (hr : r ∈ layout id position parts) :
    ∃ data ∈ parts, ∃ offset, position ≤ offset ∧
      offset + data.length ≤ position + parts.flatten.length ∧
      r = ⟨.integer id, (Digest.of data).cell, .integer offset, .integer data.length⟩ := by
  induction parts generalizing position with
  | nil => cases hr
  | cons data rest ih =>
    rw [List.flatten_cons, List.length_append]
    rcases List.mem_cons.mp hr with rfl | hr
    · exact ⟨data, List.mem_cons_self, position, Nat.le_refl _, by omega, rfl⟩
    · obtain ⟨data', hdata', offset, hfirst, hlast, rfl⟩ := ih hr
      exact ⟨data', List.mem_cons_of_mem data hdata', offset, by omega, by omega, rfl⟩

theorem exists_row_of_mem_parts {data : Bytes} (hdata : data ∈ parts) :
    ∃ r ∈ layout id position parts, r.digest = (Digest.of data).cell := by
  induction parts generalizing position with
  | nil => cases hdata
  | cons first rest ih =>
    rcases List.mem_cons.mp hdata with rfl | hdata
    · exact ⟨_, List.mem_cons_self, rfl⟩
    · obtain ⟨r, hr, hdigest⟩ := @ih (position + first.length) hdata
      exact ⟨r, List.mem_cons_of_mem _ hr, hdigest⟩

variable (hparts : ∀ data ∈ parts, data ≠ [])

include hparts

/-- Rows of a layout stand one after the other. -/
theorem layout_ascends : (layout id position parts).Pairwise fun r r' =>
    ∃ i j : Nat, r.offset = .integer i ∧ r'.offset = .integer j ∧ i < j := by
  induction parts generalizing position with
  | nil => exact .nil
  | cons data rest ih =>
    refine .cons ?_ (ih fun d hd => hparts d (List.mem_cons_of_mem data hd))
    intro r hr
    obtain ⟨data', -, offset, hfirst, -, rfl⟩ := exists_of_mem_layout hr
    have hpositive := List.length_pos_iff.mpr (hparts data List.mem_cons_self)
    exact ⟨position, offset, rfl, rfl, by omega⟩

end Layout

structure Admits (c : Catalog) (a : ArchiveRecord) (parts : List Bytes) : Prop where
  id_new : ∀ r ∈ c.archives, r.id ≠ a.id
  name_new : c.archiveId? a.name = none
  no_chunks : ∀ r ∈ c.chunks, r.archive.equals (.integer a.id) = false
  parts_ne : ∀ data ∈ parts, data ≠ []
  length : parts.flatten.length = a.length
  fits : a.length < 2 ^ 63

/-- A chunk belongs to no archive whose id is not there. -/
theorem Linked.no_chunks (h : c.Linked) {id : Int} (hid : ∀ r ∈ c.archives, r.id ≠ id)
    {r : ChunkRow} (hr : r ∈ c.chunks) : r.archive.equals (.integer id) = false := by
  rw [← Bool.not_eq_true]
  intro hequals
  obtain ⟨a, ha, harchive⟩ := h r hr
  exact hid a ha (Cell.eq_of_equals_integer harchive hequals)

/-- No chunk waits for the archive that comes next. -/
theorem Linked.next_free (h : c.Linked) :
    ∀ r ∈ c.chunks, r.archive.equals (.integer c.nextId) = false :=
  fun _ hr => h.no_chunks (fun _ ha => ne_nextId ha) hr

section Enter

variable {a : ArchiveRecord} {parts : List Bytes} (hadmits : c.Admits a parts)

include hadmits

theorem Lawful.enter (h : c.Lawful) : (c.enter a parts).Lawful where
  archive_rules := by
    intro r hr
    rcases List.mem_cons.mp hr with rfl | hr
    · rw [ArchiveRow.check_eq_ok_iff]
      exact ⟨rfl, Cell.atLeastZero_integer_iff.mpr (Int.natCast_nonneg _)⟩
    · exact h.archive_rules r hr
  chunk_rules := by
    intro r hr
    rcases List.mem_append.mp hr with hr | hr
    · obtain ⟨data, hdata, offset, -, -, rfl⟩ := exists_of_mem_layout (List.mem_reverse.mp hr)
      have hpositive := List.length_pos_iff.mpr (hadmits.parts_ne data hdata)
      rw [ChunkRow.check_eq_ok_iff, Cell.atLeastZero_integer_iff, Cell.aboveZero_integer_iff]
      exact ⟨rfl, rfl, rfl, rfl, Int.natCast_nonneg _, Int.natCast_pos.mpr hpositive⟩
    · exact h.chunk_rules r hr
  ids := .cons (fun r hr => (hadmits.id_new r hr).symm) h.ids
  names := by
    refine .cons ?_ h.names
    intro r hr
    rw [← Bool.not_eq_true, Cell.equals_comm, ArchiveRecord.row, Cell.equals_text_iff]
    exact archiveId?_eq_none_iff.mp hadmits.name_new r hr
  places := by
    refine List.pairwise_append.mpr ⟨?_, h.places, ?_⟩
    · rw [List.pairwise_reverse]
      refine (layout_ascends hadmits.parts_ne).imp ?_
      rintro r r' ⟨i, j, hi, hj, hlt⟩
      have hoffset : r'.offset.equals r.offset = false := by
        rw [hi, hj, ← Bool.not_eq_true, Cell.equals_integer_iff]
        simp only [Cell.integer.injEq, Int.ofNat_inj, reduceCtorEq, or_false]
        omega
      rw [hoffset, Bool.and_false]
    · intro r hr r' hr'
      obtain ⟨data, -, offset, -, -, rfl⟩ := exists_of_mem_layout (List.mem_reverse.mp hr)
      rw [Cell.equals_comm, hadmits.no_chunks r' hr', Bool.false_and]
  archive_words := by
    intro r hr
    rcases List.mem_cons.mp hr with rfl | hr
    · have hfits := hadmits.fits
      rw [ArchiveRecord.row, Cell.isWord_integer_iff]
      omega
    · exact h.archive_words r hr
  chunk_words := by
    intro r hr
    rcases List.mem_append.mp hr with hr | hr
    · obtain ⟨data, -, offset, -, hlast, rfl⟩ := exists_of_mem_layout (List.mem_reverse.mp hr)
      have hlength := hadmits.length
      have hfits := hadmits.fits
      rw [Cell.isWord_integer_iff, Cell.isWord_integer_iff]
      omega
    · exact h.chunk_words r hr

omit hadmits in
theorem Linked.enter (h : c.Linked) : (c.enter a parts).Linked := by
  intro r hr
  rcases List.mem_append.mp hr with hr | hr
  · obtain ⟨data, -, offset, -, -, rfl⟩ := exists_of_mem_layout (List.mem_reverse.mp hr)
    exact ⟨a.row, List.mem_cons_self, (Cell.equals_integer_iff _ _).mpr (Or.inl rfl)⟩
  · obtain ⟨a', ha', harchive⟩ := h r hr
    exact ⟨a', List.mem_cons_of_mem _ ha', harchive⟩

omit hadmits in
/-- Other archives keep their chunks. -/
theorem chunkRows_enter_of_ne {id : Int} (hid : a.id ≠ id) :
    (c.enter a parts).chunkRows id = c.chunkRows id := by
  have hnone : (layout a.id 0 parts).reverse.filter (fun r => r.archive.equals (.integer id)) = [] := by
    rw [List.filter_eq_nil_iff]
    intro r hr
    obtain ⟨data, -, offset, -, -, rfl⟩ := exists_of_mem_layout (List.mem_reverse.mp hr)
    rw [Cell.equals_integer_iff]
    simpa using hid
  rw [chunkRows, chunkRows, Catalog.enter, List.filter_append, hnone, List.nil_append]

omit hadmits in
theorem chunksOf_enter_of_ne {id : Int} (hid : a.id ≠ id) :
    (c.enter a parts).chunksOf id = c.chunksOf id := by
  rw [chunksOf, chunksOf, chunkRows_enter_of_ne hid]

/-- The rows of the archive that was entered, in order. -/
theorem byOffset_enter :
    ChunkRow.byOffset ((c.enter a parts).chunkRows a.id) = layout a.id 0 parts := by
  have hall : (layout a.id 0 parts).reverse.filter (fun r => r.archive.equals (.integer a.id)) =
      (layout a.id 0 parts).reverse := by
    rw [List.filter_eq_self]
    intro r hr
    obtain ⟨data, -, offset, -, -, rfl⟩ := exists_of_mem_layout (List.mem_reverse.mp hr)
    exact (Cell.equals_integer_iff _ _).mpr (Or.inl rfl)
  have hnone : c.chunks.filter (fun r => r.archive.equals (.integer a.id)) = [] := by
    rw [List.filter_eq_nil_iff]
    intro r hr
    rw [hadmits.no_chunks r hr]
    exact Bool.false_ne_true
  have hrows : (c.enter a parts).chunkRows a.id = (layout a.id 0 parts).reverse := by
    rw [chunkRows, Catalog.enter, List.filter_append, hall, hnone, List.append_nil]
  rw [hrows, ChunkRow.byOffset]
  -- both lists are sorted, and of two rows of the layout at one place there is only one
  refine @List.Perm.eq_of_pairwise ChunkRow (fun r r' => r.offset.le r'.offset = true) _ _ ?_ ?_ ?_ ?_
  · intro r r' hr hr' hle hge
    rw [List.mem_mergeSort, List.mem_reverse] at hr
    have hnodup : ((layout a.id 0 parts).map (·.offset)).Nodup := by
      refine List.pairwise_map.mpr ((layout_ascends hadmits.parts_ne).imp ?_)
      rintro x y ⟨i, j, hi, hj, hlt⟩ heq
      rw [hi, hj, Cell.integer.injEq] at heq
      omega
    refine List.inj_on_of_nodup_map hnodup hr hr' ?_
    obtain ⟨data, -, i, -, -, rfl⟩ := exists_of_mem_layout hr
    obtain ⟨data', -, j, -, -, rfl⟩ := exists_of_mem_layout hr'
    rw [Cell.le, decide_eq_true_iff] at hle hge
    exact congrArg Cell.integer (Int.le_antisymm hle hge)
  · exact List.pairwise_mergeSort (fun x y z => @Cell.le_trans x.offset y.offset z.offset)
      (fun x y => Cell.total x.offset y.offset) _
  · refine (layout_ascends hadmits.parts_ne).imp ?_
    rintro r r' ⟨i, j, hi, hj, hlt⟩
    rw [hi, hj, Cell.le, decide_eq_true_iff]
    omega
  · exact (List.mergeSort_perm _ _).trans (List.reverse_perm _)

omit hadmits in
theorem isReferenced_enter_iff {d : Digest} : (c.enter a parts).isReferenced d = true ↔
    c.isReferenced d = true ∨ ∃ data ∈ parts, Digest.of data = d := by
  rw [isReferenced_iff, isReferenced_iff]
  constructor
  · rintro ⟨r, hr, hdigest⟩
    rcases List.mem_append.mp hr with hr | hr
    · obtain ⟨data, hdata, offset, -, -, rfl⟩ := exists_of_mem_layout (List.mem_reverse.mp hr)
      exact Or.inr ⟨data, hdata, Cell.digest_cell_inj.mp hdigest⟩
    · exact Or.inl ⟨r, hr, hdigest⟩
  · rintro (⟨r, hr, hdigest⟩ | ⟨data, hdata, rfl⟩)
    · exact ⟨r, List.mem_append_right _ hr, hdigest⟩
    · obtain ⟨r, hr, hdigest⟩ := @exists_row_of_mem_parts a.id 0 parts data hdata
      exact ⟨r, List.mem_append_left _ (List.mem_reverse.mpr hr), hdigest⟩

end Enter

end Catalog

end DedupArchive
