/-
  DedupArchive/Proofs/Catalog/Answers.lean
  ========================================
  **Questions that are answered.**

  A question reads rows one after the other and fails at the first that cannot
  be read.  If it is answered, every row was read, and every part of the answer
  comes from a row.
-/
import Mathlib.Data.List.Forall2

namespace DedupArchive

variable {ε α β : Type}

theorem bind_eq_ok_iff {x : Except ε α} {f : α → Except ε β} {b : β} :
    x >>= f = .ok b ↔ ∃ a, x = .ok a ∧ f a = .ok b := by
  cases x with
  | error e =>
    constructor
    · intro h
      cases h
    · rintro ⟨a, h, -⟩
      cases h
  | ok a =>
    constructor
    · intro h
      exact ⟨a, rfl, h⟩
    · rintro ⟨a', h, hf⟩
      cases h
      exact hf

theorem mapM_eq_ok_iff {f : α → Except ε β} {rows : List α} {answer : List β} :
    rows.mapM f = .ok answer ↔ List.Forall₂ (fun a b => f a = .ok b) rows answer := by
  induction rows generalizing answer with
  | nil =>
    rw [List.mapM_nil, List.forall₂_nil_left_iff]
    constructor
    · intro h
      cases h
      rfl
    · rintro rfl
      rfl
  | cons a rest ih =>
    rw [List.mapM_cons, List.forall₂_cons_left_iff, bind_eq_ok_iff]
    constructor
    · rintro ⟨b, hb, h⟩
      obtain ⟨bs, hbs, heq⟩ := bind_eq_ok_iff.mp h
      cases heq
      exact ⟨b, bs, hb, ih.mp hbs, rfl⟩
    · rintro ⟨b, bs, hb, hbs, rfl⟩
      exact ⟨b, hb, bind_eq_ok_iff.mpr ⟨bs, ih.mpr hbs, rfl⟩⟩

/-- A question fails by the first row that cannot be read, which shows if all such
    rows fail alike. -/
theorem mapM_eq_error {f : α → Except ε β} {rows : List α} {e : ε}
    (hall : ∀ a ∈ rows, (∃ b, f a = .ok b) ∨ f a = .error e) (hsome : ∃ a ∈ rows, f a = .error e) :
    rows.mapM f = .error e := by
  induction rows with
  | nil =>
    obtain ⟨a, ha, -⟩ := hsome
    cases ha
  | cons a rest ih =>
    rw [List.mapM_cons]
    rcases hall a (by simp) with ⟨b, hb⟩ | herror
    · have hrest : rest.mapM f = .error e := by
        apply ih
        · intro x hx
          exact hall x (by simp [hx])
        · obtain ⟨x, hx, herror⟩ := hsome
          rcases List.mem_cons.mp hx with rfl | hx
          · rw [hb] at herror
            cases herror
          · exact ⟨x, hx, herror⟩
      rw [hb, hrest]
      rfl
    · rw [herror]
      rfl

theorem exists_of_mapM_eq_error {f : α → Except ε β} {rows : List α} {e : ε}
    (h : rows.mapM f = .error e) : ∃ a ∈ rows, f a = .error e := by
  induction rows with
  | nil => cases h
  | cons a rest ih =>
    rw [List.mapM_cons] at h
    cases ha : f a with
    | error e' =>
      rw [ha] at h
      cases h
      exact ⟨a, List.mem_cons_self, ha⟩
    | ok b =>
      rw [ha] at h
      cases hrest : rest.mapM f with
      | error e' =>
        rw [hrest] at h
        cases h
        obtain ⟨x, hx, herror⟩ := ih hrest
        exact ⟨x, List.mem_cons_of_mem a hx, herror⟩
      | ok bs =>
        rw [hrest] at h
        cases h

section Answered

variable {f : α → Except ε β} {rows : List α} {answer : List β}

/-- Every row was read. -/
theorem exists_answer_of_mem (h : rows.mapM f = .ok answer) {a : α} (ha : a ∈ rows) :
    ∃ b ∈ answer, f a = .ok b := by
  rw [mapM_eq_ok_iff] at h
  induction h with
  | nil => cases ha
  | cons hb _ ih =>
    rcases List.mem_cons.mp ha with rfl | ha
    · exact ⟨_, List.mem_cons_self, hb⟩
    · obtain ⟨b, hmem, hf⟩ := ih ha
      exact ⟨b, List.mem_cons_of_mem _ hmem, hf⟩

/-- Every part of the answer comes from a row. -/
theorem exists_row_of_mem (h : rows.mapM f = .ok answer) {b : β} (hb : b ∈ answer) :
    ∃ a ∈ rows, f a = .ok b := by
  rw [mapM_eq_ok_iff] at h
  induction h with
  | nil => cases hb
  | cons hf _ ih =>
    rcases List.mem_cons.mp hb with rfl | hb
    · exact ⟨_, List.mem_cons_self, hf⟩
    · obtain ⟨a, hmem, hf⟩ := ih hb
      exact ⟨a, List.mem_cons_of_mem _ hmem, hf⟩

theorem map_eq_of_mapM {γ : Type} {g : β → γ} {g' : α → γ} (h : rows.mapM f = .ok answer)
    (hsame : ∀ a b, f a = .ok b → g b = g' a) : answer.map g = rows.map g' := by
  rw [mapM_eq_ok_iff] at h
  induction h with
  | nil => rfl
  | cons hb _ ih => rw [List.map_cons, List.map_cons, ih, hsame _ _ hb]

/-- A question is answered if every row can be read. -/
theorem exists_mapM_ok (h : ∀ a ∈ rows, ∃ b, f a = .ok b) : ∃ answer, rows.mapM f = .ok answer := by
  induction rows with
  | nil => exact ⟨[], rfl⟩
  | cons a rest ih =>
    obtain ⟨b, hb⟩ := h a List.mem_cons_self
    obtain ⟨bs, hbs⟩ := ih fun x hx => h x (List.mem_cons_of_mem a hx)
    exact ⟨b :: bs, mapM_eq_ok_iff.mpr (.cons hb (mapM_eq_ok_iff.mp hbs))⟩

theorem mem_flatten_iff_of_mapM {g : α → Except ε (List β)} {answers : List (List β)}
    (h : rows.mapM g = .ok answers) {b : β} :
    b ∈ answers.flatten ↔ ∃ a ∈ rows, ∃ answer, g a = .ok answer ∧ b ∈ answer := by
  rw [List.mem_flatten]
  constructor
  · rintro ⟨answer, hanswer, hb⟩
    obtain ⟨a, ha, hg⟩ := exists_row_of_mem h hanswer
    exact ⟨a, ha, answer, hg, hb⟩
  · rintro ⟨a, ha, answer, hg, hb⟩
    obtain ⟨answer', hanswer, hg'⟩ := exists_answer_of_mem h ha
    cases hg.symm.trans hg'
    exact ⟨answer, hanswer, hb⟩

end Answered

end DedupArchive
