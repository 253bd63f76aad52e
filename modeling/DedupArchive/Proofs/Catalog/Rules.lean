/-
  DedupArchive/Proofs/Catalog/Rules.lean
  ======================================
  **The rules of the tables as a property of a catalog.**

  A catalog is `Lawful` when every row keeps the rules on its values, no two rows
  share a key, and every number is one of 64 bits.  It is `Linked` when every
  chunk belongs to an archive that exists.  Edits by hand keep the first and may
  break the second.
-/
import DedupArchive.Proofs.Catalog.Cells
import Mathlib.Data.List.Nodup

namespace DedupArchive

def Cell.isWord : Cell → Bool
  | .integer value => minInteger ≤ value && value ≤ maxInteger
  | _ => true

/-! ### When a row keeps the rules -/

theorem Cell.isWord_integer_iff {value : Int} :
    (Cell.integer value).isWord = true ↔ -2 ^ 63 ≤ value ∧ value < 2 ^ 63 := by
  rw [isWord, Bool.and_eq_true, decide_eq_true_iff, decide_eq_true_iff, minInteger, maxInteger]
  omega

theorem Cell.atLeastZero_integer_iff {value : Int} :
    (Cell.integer value).atLeastZero = true ↔ 0 ≤ value := by
  simp [atLeastZero, isNull, le]

theorem Cell.aboveZero_integer_iff {value : Int} :
    (Cell.integer value).aboveZero = true ↔ 0 < value := by
  simp [aboveZero, isNull, le]

theorem ArchiveRow.check_eq_ok_iff {r : ArchiveRow} :
    r.check = .ok () ↔ r.name.isNull = false ∧ r.length.atLeastZero = true := by
  rw [check]
  cases r.name.isNull <;> cases r.length.atLeastZero <;> simp

theorem ArchiveRow.checkUnique_eq_ok_iff {r : ArchiveRow} {others : List ArchiveRow} :
    r.checkUnique others = .ok () ↔
      ∀ o ∈ others, o.id ≠ r.id ∧ o.name.equals r.name = false := by
  rw [checkUnique, forall₂_and]
  cases hid : others.any (·.id == r.id) <;> cases hname : others.any (·.name.equals r.name) <;>
    simp_all

theorem ChunkRow.check_eq_ok_iff {r : ChunkRow} : r.check = .ok () ↔
    r.archive.isNull = false ∧ r.digest.isNull = false ∧ r.offset.isNull = false ∧
      r.length.isNull = false ∧ r.offset.atLeastZero = true ∧ r.length.aboveZero = true := by
  rw [check]
  cases r.archive.isNull <;> cases r.digest.isNull <;> cases r.offset.isNull <;>
    cases r.length.isNull <;> cases r.offset.atLeastZero <;> cases r.length.aboveZero <;> simp

theorem ChunkRow.checkUnique_eq_ok_iff {r : ChunkRow} {others : List ChunkRow} :
    r.checkUnique others = .ok () ↔
      ∀ o ∈ others, (o.archive.equals r.archive && o.offset.equals r.offset) = false := by
  rw [checkUnique]
  split
  · rename_i hany
    rw [List.any_eq_true] at hany
    obtain ⟨o, ho, hequal⟩ := hany
    constructor
    · intro h
      cases h
    · intro h
      rw [h o ho] at hequal
      cases hequal
  · rename_i hany
    rw [List.any_eq_true] at hany
    simp only [true_iff]
    intro o ho
    rw [← Bool.not_eq_true]
    exact fun hequal => hany ⟨o, ho, hequal⟩

namespace Catalog

/-! ### Catalogs that keep the rules -/

structure Lawful (c : Catalog) : Prop where
  archive_rules : ∀ r ∈ c.archives, r.check = .ok ()
  chunk_rules : ∀ r ∈ c.chunks, r.check = .ok ()
  ids : c.archives.Pairwise fun a b => a.id ≠ b.id
  names : c.archives.Pairwise fun a b => a.name.equals b.name = false
  places : c.chunks.Pairwise fun a b =>
    (a.archive.equals b.archive && a.offset.equals b.offset) = false
  archive_words : ∀ r ∈ c.archives, r.length.isWord = true
  chunk_words : ∀ r ∈ c.chunks, r.offset.isWord = true ∧ r.length.isWord = true

/-- Every chunk belongs to an archive that exists. -/
def Linked (c : Catalog) : Prop :=
  ∀ r ∈ c.chunks, ∃ a ∈ c.archives, r.archive.equals (.integer a.id) = true

theorem lawful_empty : empty.Lawful where
  archive_rules r hr := by cases hr
  chunk_rules r hr := by cases hr
  ids := .nil
  names := .nil
  places := .nil
  archive_words r hr := by cases hr
  chunk_words r hr := by cases hr

theorem linked_empty : empty.Linked := by
  intro r hr
  cases hr

variable {c : Catalog}

theorem Lawful.ids_nodup (h : c.Lawful) : (c.archives.map (·.id)).Nodup :=
  List.pairwise_map.mpr h.ids

theorem Lawful.names_nodup (h : c.Lawful) : (c.archives.map (·.name)).Nodup := by
  refine List.pairwise_map.mpr (h.names.imp_of_mem ?_)
  intro a b ha _ hab heq
  have hrule := h.archive_rules a ha
  -- a name that is there equals itself, and a name that is not breaks a rule
  rw [← heq, Cell.equals, Cell.same_refl, Bool.and_true, Bool.not_eq_false'] at hab
  rw [ArchiveRow.check, if_pos hab] at hrule
  cases hrule

/-- Rows with one id are one row. -/
theorem Lawful.eq_of_id (h : c.Lawful) {r r' : ArchiveRow} (hr : r ∈ c.archives)
    (hr' : r' ∈ c.archives) (hid : r.id = r'.id) : r = r' :=
  List.inj_on_of_nodup_map h.ids_nodup hr hr' hid

/-- Rows with one name are one row. -/
theorem Lawful.eq_of_name (h : c.Lawful) {r r' : ArchiveRow} (hr : r ∈ c.archives)
    (hr' : r' ∈ c.archives) (hname : r.name = r'.name) : r = r' :=
  List.inj_on_of_nodup_map h.names_nodup hr hr' hname

/-- A name is looked up in the row that has it. -/
theorem Lawful.find_name (h : c.Lawful) {r : ArchiveRow} (hr : r ∈ c.archives) {name : String}
    (hname : r.name = .text name) (keep : ArchiveRow → Bool) (hkeep : keep r = true) :
    c.archives.find? (fun r => r.name.equals (.text name) && keep r) = some r := by
  cases hfind : c.archives.find? (fun r => r.name.equals (.text name) && keep r) with
  | none =>
    rw [List.find?_eq_none] at hfind
    have := hfind r hr
    rw [hname, hkeep, Bool.and_true] at this
    exact absurd ((Cell.equals_text_iff _ _).mpr rfl) this
  | some r' =>
    have hmatch := List.find?_some hfind
    rw [Bool.and_eq_true, Cell.equals_text_iff] at hmatch
    rw [h.eq_of_name (List.mem_of_find?_eq_some hfind) hr (hmatch.1.trans hname.symm)]

/-! ### What follows from a lookup by name -/

theorem exists_mem_of_archiveId? {name : String} {id : Int} (h : c.archiveId? name = some id) :
    ∃ r ∈ c.archives, r.name = .text name ∧ r.id = id := by
  rw [archiveId?, Option.map_eq_some_iff] at h
  obtain ⟨r, hfind, hid⟩ := h
  have hmatch := List.find?_some hfind
  rw [Cell.equals_text_iff] at hmatch
  exact ⟨r, List.mem_of_find?_eq_some hfind, hmatch, hid⟩

theorem archiveId?_eq_none_iff {name : String} :
    c.archiveId? name = none ↔ ∀ r ∈ c.archives, r.name ≠ .text name := by
  rw [archiveId?, Option.map_eq_none_iff, List.find?_eq_none]
  constructor
  · intro h r hr hname
    exact h r hr ((Cell.equals_text_iff _ _).mpr hname)
  · intro h r hr hname
    exact h r hr ((Cell.equals_text_iff _ _).mp hname)

end Catalog

end DedupArchive
