/-
  DedupArchive/Proofs/Ascending.lean
  ==================================
  **Lists that ascend.**

  A list that ascends strictly is told by its members, whatever order it was made
  in.  Sorting makes one of any list that has no member twice.
-/
import Mathlib.Data.List.Sort

namespace DedupArchive

variable {α : Type} [Ord α] {l l' : List α}

theorem lt_of_isLE_of_ne [Std.LawfulEqOrd α] {x y : α} (hle : (compare x y).isLE = true)
    (hne : x ≠ y) : compare x y = .lt := by
  cases hcompare : compare x y with
  | lt => rfl
  | eq => exact absurd (Std.LawfulEqCmp.eq_of_compare hcompare) hne
  | gt =>
    rw [hcompare] at hle
    cases hle

theorem ascend_of_sorted [Std.LawfulEqOrd α] (hsorted : l.Pairwise fun x y => (compare x y).isLE)
    (hnodup : l.Nodup) : l.Pairwise fun x y => compare x y = .lt := by
  apply (hsorted.and hnodup).imp
  rintro x y ⟨hle, hne⟩
  exact lt_of_isLE_of_ne hle hne

theorem eq_of_ascend [Std.TransOrd α] (h : l.Pairwise fun x y => compare x y = .lt)
    (h' : l'.Pairwise fun x y => compare x y = .lt) (hmem : ∀ x, x ∈ l ↔ x ∈ l') : l = l' := by
  have hself (x : α) : compare x x = .eq := Std.ReflCmp.compare_self
  have hswap (x y : α) : compare y x = (compare x y).swap := Std.OrientedCmp.eq_swap
  have : Std.Irrefl fun x y : α => compare x y = .lt := by
    refine ⟨fun x hx => ?_⟩
    rw [hself] at hx
    cases hx
  have : Std.Antisymm fun x y : α => compare x y = .lt := by
    refine ⟨fun x y hxy hyx => ?_⟩
    rw [hswap, hxy] at hyx
    cases hyx
  exact h.eq_of_mem_iff h' hmem

end DedupArchive
