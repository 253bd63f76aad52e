/-
  DedupArchive/Proofs/Catalog/Cells.lean
  ======================================
  **The common order of cells.**

  Cells of all classes stand in one order, and cells are the same when each
  comes before the other.  An integer is the same as the fraction of its value;
  apart from that a cell is the same as itself only.  Whether a cell equals an
  integer, a text or a digest can therefore be read off the cell.
-/
import DedupArchive.Catalog.Query
import Mathlib.Data.Rat.Cast.Order

namespace DedupArchive.Cell

/-! ### The order -/

def number : Cell → Rat
  | .integer value => value
  | .real value => value
  | _ => 0

def letters : Cell → String
  | .text value => value
  | _ => ""

def payload : Cell → Bytes
  | .blob value => value
  | _ => []

theorem isLE_or_isLE {α : Type} [Ord α] [Std.OrientedOrd α] (a b : α) :
    (compare a b).isLE = true ∨ (compare b a).isLE = true := by
  have hswap : compare b a = (compare a b).swap := Std.OrientedCmp.eq_swap
  rw [hswap]
  cases compare a b <;> simp

/-- Classes come first, and within a class values. -/
theorem le_iff (a b : Cell) : a.le b = true ↔ a.rank < b.rank ∨ a.rank = b.rank ∧
    a.number ≤ b.number ∧ (compare a.letters b.letters).isLE = true ∧
      (compare a.payload b.payload).isLE = true := by
  cases a <;> cases b <;> simp [le, rank, number, letters, payload]

theorem le_trans {a b c : Cell} (hab : a.le b = true) (hbc : b.le c = true) : a.le c = true := by
  rw [le_iff] at hab hbc ⊢
  rcases hab with hab | ⟨hrab, hnab, hlab, hpab⟩
  · rcases hbc with hbc | ⟨hrbc, -⟩
    · exact Or.inl (by omega)
    · exact Or.inl (by omega)
  · rcases hbc with hbc | ⟨hrbc, hnbc, hlbc, hpbc⟩
    · exact Or.inl (by omega)
    · exact Or.inr ⟨hrab.trans hrbc, hnab.trans hnbc, Std.TransCmp.isLE_trans hlab hlbc,
        Std.TransCmp.isLE_trans hpab hpbc⟩

theorem total (a b : Cell) : (a.le b || b.le a) = true := by
  rw [Bool.or_eq_true]
  have htext (s t : String) : (compare s t).isLE = true ∨ (compare t s).isLE = true := isLE_or_isLE s t
  have hbytes (s t : Bytes) : (compare s t).isLE = true ∨ (compare t s).isLE = true := isLE_or_isLE s t
  cases a <;> cases b <;> simp [le, rank, le_total, htext, hbytes]

/-! ### Sameness -/

theorem eq_of_isLE {α : Type} [Ord α] [Std.OrientedOrd α] [Std.LawfulEqOrd α] {a b : α}
    (hab : (compare a b).isLE = true) (hba : (compare b a).isLE = true) : a = b := by
  have hswap : compare b a = (compare a b).swap := Std.OrientedCmp.eq_swap
  rw [hswap] at hba
  cases h : compare a b with
  | lt => simp [h] at hba
  | eq => exact Std.LawfulEqCmp.eq_of_compare h
  | gt => simp [h] at hab

theorem same_iff (a b : Cell) : a.same b = true ↔ a.rank = b.rank ∧ a.number = b.number ∧
    a.letters = b.letters ∧ a.payload = b.payload := by
  rw [same, Bool.and_eq_true, le_iff, le_iff]
  constructor
  · rintro ⟨hab | ⟨hrank, hnab, hlab, hpab⟩, hba | ⟨hrank', hnba, hlba, hpba⟩⟩
    · omega
    · omega
    · omega
    · exact ⟨hrank, le_antisymm hnab hnba, eq_of_isLE hlab hlba, eq_of_isLE hpab hpba⟩
  · rintro ⟨hrank, hnumber, hletters, hpayload⟩
    rw [hrank, hnumber, hletters, hpayload]
    have hrefl : (b.rank < b.rank ∨ b.rank = b.rank ∧ b.number ≤ b.number ∧
        (compare b.letters b.letters).isLE = true ∧ (compare b.payload b.payload).isLE = true) :=
      Or.inr ⟨rfl, le_refl _, Std.ReflCmp.isLE_rfl, Std.ReflCmp.isLE_rfl⟩
    exact ⟨hrefl, hrefl⟩

theorem same_refl (a : Cell) : a.same a = true := (same_iff a a).mpr ⟨rfl, rfl, rfl, rfl⟩

theorem same_comm (a b : Cell) : a.same b = b.same a := Bool.and_comm _ _

/-! ### Which cells equal a value -/

theorem equals_iff (a b : Cell) : a.equals b = true ↔ a ≠ .null ∧ a.same b = true := by
  cases a <;> simp [equals, isNull]

theorem isNull_eq_of_same {a b : Cell} (h : a.same b = true) : a.isNull = b.isNull := by
  have hrank := ((same_iff a b).mp h).1
  cases a <;> cases b <;> first | rfl | simp [rank] at hrank

theorem equals_comm (a b : Cell) : a.equals b = b.equals a := by
  rw [equals, equals, same_comm b a]
  cases h : a.same b with
  | false => rw [Bool.and_false, Bool.and_false]
  | true => rw [isNull_eq_of_same h]

theorem same_text_iff (c : Cell) (t : String) : c.same (.text t) = true ↔ c = .text t := by
  rw [same_iff]
  cases c <;> simp [rank, number, letters, payload]

theorem same_blob_iff (c : Cell) (bytes : Bytes) : c.same (.blob bytes) = true ↔ c = .blob bytes := by
  rw [same_iff]
  cases c <;> simp [rank, number, letters, payload]

theorem same_integer_iff (c : Cell) (i : Int) :
    c.same (.integer i) = true ↔ c = .integer i ∨ c = .real i := by
  rw [same_iff]
  cases c <;> simp [rank, number, letters, payload]

@[simp] theorem equals_text_iff (c : Cell) (t : String) : c.equals (.text t) = true ↔ c = .text t := by
  rw [equals_iff, same_text_iff]
  constructor
  · exact And.right
  · rintro rfl
    exact ⟨Cell.noConfusion, rfl⟩

@[simp] theorem equals_digest_iff (c : Cell) (d : Digest) : c.equals d.cell = true ↔ c = d.cell := by
  rw [equals_iff, Digest.cell, same_blob_iff]
  constructor
  · exact And.right
  · rintro rfl
    exact ⟨Cell.noConfusion, rfl⟩

theorem equals_integer_iff (c : Cell) (i : Int) :
    c.equals (.integer i) = true ↔ c = .integer i ∨ c = .real i := by
  rw [equals_iff, same_integer_iff]
  constructor
  · exact And.right
  · rintro (rfl | rfl)
    · exact ⟨Cell.noConfusion, Or.inl rfl⟩
    · exact ⟨Cell.noConfusion, Or.inr rfl⟩

/-- A cell equals one integer at most. -/
theorem eq_of_equals_integer {c : Cell} {i j : Int} (hi : c.equals (.integer i) = true)
    (hj : c.equals (.integer j) = true) : i = j := by
  rw [equals_integer_iff] at hi hj
  rcases hi with rfl | rfl <;> simpa using hj

theorem equals_of_equals_integer {a b : Cell} {i : Int} (ha : a.equals (.integer i) = true)
    (hb : b.equals (.integer i) = true) : a.equals b = true := by
  rw [equals_integer_iff] at ha hb
  rw [equals_iff, same_iff]
  rcases ha with rfl | rfl <;> rcases hb with rfl | rfl <;> simp [rank, number, letters, payload]

theorem digest_cell_inj {d e : Digest} : d.cell = e.cell ↔ d = e := by
  constructor
  · intro h
    exact Digest.ext_bytes (Cell.blob.inj h)
  · rintro rfl
    rfl

end DedupArchive.Cell
