/-
  DedupArchive/Proofs/Files/Places.lean
  =====================================
  **Places that paths lead to.**

  A path may wander about: by dots, by steps up, by slashes at its end.  The place
  that it leads to has a path of its own, which goes straight there, through
  directories only if the path itself does.  So what stands at a place is found by
  both.  Whether a path is taken as it is written depends on its names and on how
  many bytes they have.
-/
import DedupArchive.Proofs.Files.Walking
import Mathlib.Data.Set.Basic

namespace DedupArchive

namespace Path

/-! ### Straight paths -/

def IsStep (name : String) : Prop := isIdle name = false ∧ name ≠ ".."

instance : DecidablePred IsStep := fun _ => inferInstanceAs (Decidable (_ ∧ _))

theorem IsStep.ne_empty {name : String} (h : IsStep name) : name ≠ "" := by
  rintro rfl
  cases h.1

theorem IsStep.step_eq {name : String} (h : IsStep name) (place : Path) : step place name = place ++ [name] := by
  rw [step, h.1, if_neg Bool.false_ne_true, if_neg h.2]

theorem IsStep.plain_append {name : String} (h : IsStep name) (p : Path) :
    plain (p ++ [name]) = p.plain ++ [name] := by
  rw [plain, List.foldl_append]
  exact h.step_eq _

/-- Whether every name leads one step down. -/
def IsStraight (p : Path) : Prop := ∀ name ∈ p, IsStep name

variable {p place : Path} {names : List String}

theorem IsStraight.foldl_step (h : IsStraight p) (place : Path) : p.foldl step place = place ++ p := by
  induction p generalizing place with
  | nil => exact (List.append_nil place).symm
  | cons name rest ih =>
    obtain ⟨hname, hrest⟩ := List.forall_mem_cons.mp h
    rw [List.foldl_cons, hname.step_eq, ih hrest, List.append_assoc]
    rfl

theorem IsStraight.plain_eq (h : IsStraight p) : p.plain = p := h.foldl_step []

theorem IsStraight.step (h : IsStraight place) (name : String) : IsStraight (Path.step place name) := by
  rw [Path.step]
  split
  · exact h
  · rename_i hidle
    split
    · intro other hother
      exact h other (List.dropLast_subset _ hother)
    · rename_i hup
      intro other hother
      rcases List.mem_append.mp hother with hother | hother
      · exact h other hother
      · rw [List.mem_singleton.mp hother]
        exact ⟨Bool.eq_false_iff.mpr hidle, hup⟩

theorem IsStraight.foldl (h : IsStraight place) (names : List String) :
    IsStraight (names.foldl Path.step place) := by
  induction names generalizing place with
  | nil => exact h
  | cons name rest ih => exact ih (h.step name)

theorem isStraight_plain (p : Path) : IsStraight p.plain :=
  @IsStraight.foldl [] (fun _ h => nomatch h) p

/-- A step adds no name but the one that is followed. -/
theorem mem_foldl_step {name : String} (h : name ∈ names.foldl step place) : name ∈ place ∨ name ∈ names := by
  induction names generalizing place with
  | nil => exact Or.inl h
  | cons first rest ih =>
    rcases ih h with h | h
    · rw [step] at h
      split at h
      · exact Or.inl h
      · split at h
        · exact Or.inl (List.dropLast_subset _ h)
        · rcases List.mem_append.mp h with h | h
          · exact Or.inl h
          · rw [List.mem_singleton.mp h]
            exact Or.inr List.mem_cons_self
    · exact Or.inr (List.mem_cons_of_mem first h)

theorem mem_of_mem_plain {name : String} (h : name ∈ p.plain) : name ∈ p := by
  rcases mem_foldl_step h with h | h
  · cases h
  · exact h

/-! ### Paths as they are written -/

theorem text_append {p q : Path} (hp : p ≠ []) (hq : q ≠ []) : text (p ++ q) = p.text ++ "/" ++ q.text := by
  induction p with
  | nil => exact absurd rfl hp
  | cons name rest ih =>
    obtain ⟨first, more, rfl⟩ := List.exists_cons_of_ne_nil hq
    cases rest with
    | nil => exact String.intercalate_cons_cons
    | cons second others =>
      have htail := ih (List.cons_ne_nil second others)
      simp only [text, List.cons_append] at htail ⊢
      rw [String.intercalate_cons_cons, String.intercalate_cons_cons, htail]
      simp only [String.append_assoc]

/-- Whether a name can be that of a file. -/
def IsAdmitted (name : String) : Prop := '\x00' ∉ name.toList ∧ isTooLong name = false

instance : DecidablePred IsAdmitted := fun _ => inferInstanceAs (Decidable (_ ∧ _))

theorem refusal?_eq_none_iff : p.refusal? = none ↔
    (∀ name ∈ p, '\x00' ∉ name.toList) ∧ p.text.utf8ByteSize ≤ 4095 := by
  rw [refusal?]
  by_cases hnul : p.any fun name => name.toList.contains '\x00'
  · rw [if_pos hnul]
    simp only [reduceCtorEq, false_iff, not_and]
    intro hnone
    simp only [List.any_eq_true, List.contains_iff_mem] at hnul
    obtain ⟨name, hname, hmem⟩ := hnul
    exact absurd hmem (hnone name hname)
  · rw [if_neg hnul]
    simp only [List.any_eq_true, List.contains_iff_mem, not_exists, not_and] at hnul
    simp only [ite_eq_right_iff, reduceCtorEq, imp_false, Nat.not_lt]
    exact ⟨fun hsize => ⟨hnul, hsize⟩, And.right⟩

theorem taken_iff : p.Taken ↔ (∀ name ∈ p, IsAdmitted name) ∧ p.text.utf8ByteSize ≤ 4095 := by
  rw [Taken, refusal?_eq_none_iff, List.any_eq_false]
  simp only [IsAdmitted, Bool.not_eq_true, forall_and]
  exact and_right_comm

theorem Taken.of_append (h : Taken (p ++ names)) : Taken p := by
  rw [taken_iff] at h ⊢
  refine ⟨fun name hname => h.1 name (List.mem_append_left names hname), ?_⟩
  by_cases hp : p = []
  · rw [hp]
    decide
  · by_cases hnames : names = []
    · rw [hnames, List.append_nil] at h
      exact h.2
    · have hsize := h.2
      rw [text_append hp hnames, String.utf8ByteSize_append, String.utf8ByteSize_append] at hsize
      omega

/-- Other names behind the same ones are taken if they have no more bytes. -/
theorem Taken.exchange {names' : List String} (h : Taken (p ++ names)) (hnames : names ≠ [])
    (hnames' : names' ≠ []) (hadmitted : ∀ name ∈ names', IsAdmitted name)
    (hsize : (text names').utf8ByteSize ≤ (text names).utf8ByteSize) : Taken (p ++ names') := by
  rw [taken_iff] at h ⊢
  obtain ⟨hp, hall⟩ := h
  constructor
  · intro name hname
    rcases List.mem_append.mp hname with hname | hname
    · exact hp name (List.mem_append_left names hname)
    · exact hadmitted name hname
  · by_cases hempty : p = []
    · rw [hempty, List.nil_append] at hall ⊢
      exact Nat.le_trans hsize hall
    · rw [text_append hempty hnames, String.utf8ByteSize_append] at hall
      rw [text_append hempty hnames', String.utf8ByteSize_append]
      omega

def stem (p : Path) : Path := if p.getLast? = some "" then p.dropLast else p

theorem join_eq (p : Path) (name : String) : p.join name = p.stem ++ [name] := by
  rw [join, stem]
  split <;> rfl

theorem eq_stem_or (p : Path) : p = p.stem ∨ p = p.stem ++ [""] := by
  rw [stem]
  split
  · rename_i hslash
    obtain ⟨base, rfl⟩ := List.getLast?_eq_some_iff.mp hslash
    rw [List.dropLast_concat]
    exact Or.inr rfl
  · exact Or.inl rfl

theorem plain_stem (p : Path) : p.stem.plain = p.plain := by
  rcases p.eq_stem_or with h | h
  · rw [← h]
  · exact ((congrArg plain h).trans List.foldl_append).symm

theorem IsStep.plain_join {name : String} (h : IsStep name) (p : Path) :
    plain (p.join name) = p.plain ++ [name] := by
  rw [join_eq, h.plain_append, plain_stem]

end Path

namespace FileTree

variable {t t' : FileTree} {place p : Path} {names : List String}

/-! ### Ways to places -/

theorem Way.head (h : t.Way place names) : t.entry? place = some .directory := by
  cases names with
  | nil => exact h
  | cons name rest => exact h.1

theorem way_append {more : List String} :
    t.Way place (names ++ more) ↔ t.Way place names ∧ t.Way (names.foldl Path.step place) more := by
  induction names generalizing place with
  | nil => exact ⟨fun h => ⟨h.head, h⟩, And.right⟩
  | cons name rest ih =>
    rw [List.cons_append, Way, Way, ih, List.foldl_cons]
    exact and_assoc.symm

/-- Where a way leads, a straight way leads as well. -/
theorem Way.straight (hplace : place.IsStraight) (hway : t.Way [] place) (h : t.Way place names) :
    t.Way [] (names.foldl Path.step place) := by
  induction names generalizing place with
  | nil => exact hway
  | cons name rest ih =>
    refine ih (hplace.step name) ?_ h.2
    rw [Path.step]
    split
    · exact hway
    · split
      · -- the places above have been passed on the way here
        by_cases hempty : place = []
        · rw [hempty]
          rfl
        · rw [← List.dropLast_concat_getLast hempty, way_append] at hway
          exact hway.1
      · rw [way_append, hplace.foldl_step, List.nil_append]
        exact ⟨hway, h.1, h.2.head⟩

theorem Way.plain (h : t.Way [] p) : t.Way [] p.plain := Way.straight (fun _ h => nomatch h) rfl h

/-- Before the place of a path nothing but directories is passed. -/
theorem entry_of_walk {q : Path} {e : Entry} (h : t.walk place names = .ok (q, e)) :
    q = names.foldl Path.step place ∧ t.entry? q = some e := by
  induction names generalizing place with
  | nil =>
    rw [walk] at h
    split at h
    · cases h
    · rename_i hentry
      cases h
      exact ⟨rfl, hentry⟩
  | cons name rest ih =>
    rw [walk] at h
    split at h
    · cases h
    · split at h
      · cases h
      · exact ih h
    · cases h

theorem entry_of_locate {q : Path} {e : Entry} (h : t.locate p = .ok (q, e)) :
    q = p.plain ∧ t.entry? q = some e := by
  rw [locate] at h
  split at h
  · cases h
  · exact entry_of_walk h

theorem entry_of_find {e : Entry} (h : t.find p = .ok e) : t.entry? p.plain = some e := by
  rw [find] at h
  split at h
  · cases h
  · rename_i hlocate
    cases h
    obtain ⟨rfl, hentry⟩ := entry_of_locate hlocate
    exact hentry

/-! ### Changes at some places -/

/-- Whether the trees differ at some places only, and no directory is gone. -/
structure AltersOnly (t t' : FileTree) (places : Set Path) : Prop where
  keeps : t.KeepsDirectories t'
  same : ∀ q ∉ places, t'.entry? q = t.entry? q

variable {t'' : FileTree} {places places' : Set Path}

theorem AltersOnly.refl (t : FileTree) : t.AltersOnly t places := ⟨.refl t, fun _ _ => rfl⟩

theorem AltersOnly.trans (h : t.AltersOnly t' places) (h' : t'.AltersOnly t'' places) :
    t.AltersOnly t'' places := by
  refine ⟨h.keeps.trans h'.keeps, ?_⟩
  intro q hq
  rw [h'.same q hq, h.same q hq]

theorem AltersOnly.mono (h : t.AltersOnly t' places) (hmore : places ⊆ places') :
    t.AltersOnly t' places' := ⟨h.keeps, fun q hq => h.same q fun hmem => hq (hmore hmem)⟩

theorem altersOnly_put {place : Path} {e : Entry} (htop : place ≠ [])
    (hfree : t.entry? place ≠ some .directory) : t.AltersOnly (t.put place e) {place} := by
  refine ⟨keepsDirectories_of_change hfree fun q => entry_put htop, ?_⟩
  intro q hq
  rw [entry_put htop, if_neg]
  rintro rfl
  exact hq rfl

theorem altersOnly_erase {place : Path} (htop : place ≠ []) (hfree : t.entry? place ≠ some .directory) :
    t.AltersOnly ⟨t.entries.erase place⟩ {place} := by
  refine ⟨keepsDirectories_of_change hfree fun q => entry_erase htop, ?_⟩
  intro q hq
  rw [entry_erase htop, if_neg]
  rintro rfl
  exact hq rfl

/-! ### Names in a directory -/

section Names

variable {name : String} (h : t.Leads p) (htaken : Path.Taken (p ++ [name])) (hname : Path.IsStep name)

include h htaken hname

theorem Leads.find_name {e : Entry} (hentry : t.entry? (p.plain ++ [name]) = some e) :
    t.find (p ++ [name]) = .ok e := by
  rw [find, h.locate_name htaken (hname.step_eq _), hentry]

theorem Leads.contains_name : t.contains (p ++ [name]) = .ok (t.entry? (p.plain ++ [name])).isSome := by
  rw [contains, find, h.locate_name htaken (hname.step_eq _)]
  cases t.entry? (p.plain ++ [name]) <;> rfl

theorem Leads.putFile_name (e : Entry) (hfree : t.entry? (p.plain ++ [name]) ≠ some .directory) :
    t.putFile (p ++ [name]) e = .ok (t.put (p.plain ++ [name]) e) := by
  have hshort : Path.isTooLong name = false := by
    have hany := htaken.2
    rw [List.any_append, Bool.or_eq_false_iff, List.any_cons, Bool.or_eq_false_iff] at hany
    exact hany.2.1
  have hlast : (p ++ [name]).getLastD "" = name := List.getLastD_concat
  rw [putFile, htaken.1]
  simp only [Path.trim_append_singleton hname.ne_empty, List.dropLast_concat, h.walk, hlast,
    hname.step_eq, hname.ne_empty, hfree, hshort, if_false, Bool.false_eq_true]
  rfl

theorem Leads.removeFile_name {e : Entry} (hentry : t.entry? (p.plain ++ [name]) = some e)
    (hfile : e ≠ .directory) :
    t.removeFile (p ++ [name]) = .ok ⟨t.entries.erase (p.plain ++ [name])⟩ := by
  rw [removeFile, h.locate_name htaken (hname.step_eq _), hentry]
  cases e with
  | directory => exact absurd rfl hfile
  | file data => rfl
  | catalog rows => rfl

theorem Leads.below (hentry : t.entry? (p.plain ++ [name]) = some .directory) : t.Leads (p ++ [name]) := by
  refine ⟨htaken, way_append.mpr ⟨h.way, h.entry_plain, ?_⟩⟩
  rw [← Path.plain, hname.step_eq]
  exact hentry

end Names

theorem makeBelow_of_way {made : Bool} (h : t.Way place names) :
    t.makeBelow place made names = (.ok (), t) := by
  induction names generalizing place with
  | nil => rfl
  | cons name rest ih =>
    rw [makeBelow, h.2.head]
    exact ih h.2

theorem makeDirectories_of_way {last : String} (hlast : last ≠ "")
    (hrefusal : Path.refusal? (p ++ [last]) = none) (h : t.Way [] (p ++ [last])) :
    t.makeDirectories (p ++ [last]) = (.ok (), t) := by
  rw [makeDirectories, hrefusal, Path.trim_append_singleton hlast]
  exact makeBelow_of_way h

/-- Directories are made only where nothing stands. -/
theorem entry_of_makeBelow {made : Bool} {result : Except IoError Unit} {q : Path} {e : Entry}
    (h : t.makeBelow place made names = (result, t')) (hentry : t.entry? q = some e) : t'.entry? q = some e := by
  induction names generalizing t place made with
  | nil =>
    cases h
    exact hentry
  | cons name rest ih =>
    rw [makeBelow] at h
    cases hnext : t.entry? (Path.step place name) with
    | none =>
      simp only [hnext] at h
      split at h
      · cases h
        exact hentry
      · split at h
        · cases h
          exact hentry
        · refine ih h ?_
          rw [entry_put, if_neg, hentry]
          · rintro rfl
            rw [hnext] at hentry
            cases hentry
          · intro htop
            rw [htop] at hnext
            cases hnext
    | some found =>
      cases found with
      | directory =>
        simp only [hnext] at h
        exact ih h hentry
      | file data =>
        simp only [hnext] at h
        cases h
        exact hentry
      | catalog rows =>
        simp only [hnext] at h
        cases h
        exact hentry

theorem entry_of_makeDirectories {result : Except IoError Unit} {q : Path} {e : Entry}
    (h : t.makeDirectories p = (result, t')) (hentry : t.entry? q = some e) : t'.entry? q = some e := by
  rw [makeDirectories] at h
  split at h
  · cases h
    exact hentry
  · exact entry_of_makeBelow h hentry

/-! ### Files that are put -/

/-- A file that could be put stands in a directory at a path that is taken, where
    no directory was. -/
theorem eq_of_putFile {name : String} {e : Entry} (hname : Path.IsStep name)
    (h : t.putFile (p ++ [name]) e = .ok t') : Path.Taken (p ++ [name]) ∧ t.Way [] p ∧
      t.entry? (p.plain ++ [name]) ≠ some .directory ∧ t' = t.put (p.plain ++ [name]) e := by
  rw [putFile, Path.trim_append_singleton hname.ne_empty, List.dropLast_concat, List.getLastD_concat] at h
  cases hrefusal : Path.refusal? (p ++ [name]) with
  | some refusal =>
    rw [hrefusal] at h
    cases h
  | none =>
    rw [hrefusal] at h
    cases hwalk : t.walk [] p with
    | error refusal =>
      simp only [hwalk] at h
      cases h
    | ok found =>
      obtain ⟨above, entry⟩ := found
      obtain ⟨rfl, -⟩ := entry_of_walk hwalk
      cases entry with
      | directory =>
        obtain ⟨hway, hshort⟩ := way_of_walk hwalk
        have hstep : Path.step (p.foldl Path.step []) name = p.plain ++ [name] := hname.step_eq _
        simp only [hwalk, hstep] at h
        split at h
        · cases h
        · rename_i hdirectory
          split at h
          · cases h
          · rename_i hlong
            cases h
            refine ⟨⟨hrefusal, ?_⟩, hway, ?_, rfl⟩
            · rw [List.any_append, hshort, List.any_cons, Bool.eq_false_iff.mpr hlong]
              rfl
            · simp only [Bool.or_eq_true, not_or, decide_eq_true_eq] at hdirectory
              exact hdirectory.2
      | file data =>
        simp only [hwalk] at h
        cases h
      | catalog rows =>
        simp only [hwalk] at h
        cases h

end FileTree

end DedupArchive
