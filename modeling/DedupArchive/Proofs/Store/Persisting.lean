/-
  DedupArchive/Proofs/Store/Persisting.lean
  =========================================
  **Parameters outlive the handle that wrote them.**

  A store is cut by the parameters that its directory tells.  They are written
  without a look at their values, in a file behind two others, and they are
  looked at when they are read.  So whatever was written comes back in all five
  numbers, or is refused as invalid parameters, never as unreadable ones.

  Whether a descriptor can be written depends on the directory alone.
-/
import DedupArchive.Proofs.Store.Founding

namespace DedupArchive.Descriptor

open DedupArchive.Path (IsStep)

variable {t t' : FileTree} {root : Path} {p : Params}

/-! ### Directories that take a descriptor -/

def partNames : List String := ["name", "version", "chunking"]

/-- Whether the folder of a descriptor can be made and its parts written. -/
def IsWritable (t : FileTree) (root : Path) : Prop :=
  ∃ t₁, t.makeDirectories (folder root) = (.ok (), t₁) ∧ ∀ name ∈ partNames, IsFree t₁ root name

theorem isFree_of_writeFiles {parts : List (String × String)} (hstep : ∀ part ∈ parts, IsStep part.1)
    (h : writeFiles t (folder root) parts = (.ok (), t')) : ∀ part ∈ parts, IsFree t root part.1 := by
  induction parts generalizing t with
  | nil => exact nofun
  | cons part rest ih =>
    obtain ⟨hname, hrest⟩ := List.forall_mem_cons.mp hstep
    rw [writeFiles, join_folder, FileTree.writeFile] at h
    split at h
    · cases h
    · rename_i t₁ hput
      obtain ⟨htaken, -, hfree, rfl⟩ := FileTree.eq_of_putFile hname hput
      refine List.forall_mem_cons.mpr ⟨⟨htaken, hfree⟩, ?_⟩
      intro other hother
      obtain ⟨htaken', hfree'⟩ := ih hrest h other hother
      refine ⟨htaken', ?_⟩
      -- where the part was written there was no directory before
      rw [FileTree.entry_put (List.append_ne_nil_of_right_ne_nil _ (List.cons_ne_nil _ _))] at hfree'
      split at hfree'
      · rename_i hsame
        rw [← hsame]
        exact hfree
      · exact hfree'

theorem write_ok_iff : (write t root p).1 = .ok () ↔ IsWritable t root := by
  have hnames : partNames = (files p).map (·.1) := rfl
  have hparts (t : FileTree) : (∀ name ∈ partNames, IsFree t root name) ↔
      ∀ part ∈ files p, IsFree t root part.1 := by
    rw [hnames, List.forall_mem_map]
  rw [write, IsWritable]
  simp only [hparts]
  rcases hmake : t.makeDirectories (folder root) with ⟨cause | _, t₁⟩
  · simp
  · simp only [Prod.mk.injEq, true_and, exists_eq_left']
    rcases hwrite : writeFiles t₁ (folder root) (files p) with ⟨e | _, t₂⟩
    · obtain ⟨part, hpart, hblocked⟩ :=
        exists_not_isFree isStep_of_mem_files (FileTree.way_of_made hmake) hwrite
      simp only [reduceCtorEq, false_iff]
      exact fun hfree => hblocked (hfree part hpart)
    · exact iff_of_true rfl (isFree_of_writeFiles isStep_of_mem_files hwrite)

/-- In a directory that is there, nothing is in the way but what stands in the folder. -/
theorem isWritable_iff (hway : t.Way [] root) : IsWritable t root ↔
    (t.entry? (folder root).plain = none ∨ t.entry? (folder root).plain = some .directory) ∧
      ∀ name ∈ partNames, IsFree t root name := by
  have hway : t.Way [] root.stem := FileTree.way_stem_iff.mpr hway
  constructor
  · rintro ⟨t₁, hmake, hfree⟩
    exact ⟨folder_of_made hmake, fun name hname => (isFree_of_folder hway hmake name).mp (hfree name hname)⟩
  · rintro ⟨hfolder, hfree⟩
    obtain ⟨htaken, -⟩ := hfree "name" (by decide)
    obtain ⟨t₁, hmake⟩ := exists_made hway htaken.of_append hfolder
    exact ⟨t₁, hmake, fun name hname => (isFree_of_folder hway hmake name).mpr (hfree name hname)⟩

/-! ### Reading what was written -/

theorem read_of_write (h : write t root p = (.ok (), t')) : read t' root = match p.validate with
    | .ok () => .ok { p with hashing := true }
    | .error e => .error (.notAStore root.text (.invalidParams (.invalidParams e))) := by
  obtain ⟨hway, hstands, -⟩ := spec_of_write h
  obtain ⟨htaken, -⟩ := hstands ("chunking", p.toIndentedJson) (by simp [files])
  exact read_eq_of_stands hstands ⟨htaken.of_append, hway⟩

/-- **Parameters come back.**  Both layouts of any parameters are read as these
    parameters, hashing.  A descriptor of any parameters can be written exactly if
    the directory takes one.  Then they are read from the directory if they are
    valid, and refused with words that say so if they are not. -/
theorem params_persist (t : FileTree) (root : Path) (p : Params) :
    Params.ofJson? p.toJson = some { p with hashing := true } ∧
    Params.ofJson? p.toIndentedJson = some { p with hashing := true } ∧
    ((write t root p).1 = .ok () ↔ IsWritable t root) ∧
    (t.Way [] root → (IsWritable t root ↔
      (t.entry? (folder root).plain = none ∨ t.entry? (folder root).plain = some .directory) ∧
        ∀ name ∈ partNames, IsFree t root name)) ∧
    ((write t root p).1 = .ok () →
      (p.validate = .ok () → read (write t root p).2 root = .ok { p with hashing := true }) ∧
      ∀ e, p.validate = .error e → ∃ reason,
        read (write t root p).2 root = .error (.notAStore root.text reason) ∧
          reason.message = "invalid chunking parameters: " ++ (ChunkError.invalidParams e).message) := by
  refine ⟨p.ofJson?_toJson, p.ofJson?_toIndentedJson, write_ok_iff, isWritable_iff, ?_⟩
  intro hok
  have hread := read_of_write (Prod.ext hok rfl)
  constructor
  · intro hvalid
    rw [hread, hvalid]
  · intro e hinvalid
    rw [hread, hinvalid]
    exact ⟨_, rfl, rfl⟩

/-- Parameters that do not hash are read back as hashing; a window of no bytes is
    written and refused. -/
theorem params_persist_directory :
    (∃ t', write (.ofDirectory "s") ["s"] { Params.standard with hashing := false } = (.ok (), t') ∧
      read t' ["s"] = .ok .standard) ∧
    ∃ t', write (.ofDirectory "s") ["s"] { Params.standard with window := 0 } = (.ok (), t') ∧
      ∃ reason, read t' ["s"] = .error (.notAStore "s" reason) := by
  have hunhashed : (write (.ofDirectory "s") ["s"] { Params.standard with hashing := false }).1 = .ok () := by
    decide +kernel
  have hbare : (write (.ofDirectory "s") ["s"] { Params.standard with window := 0 }).1 = .ok () := by
    decide +kernel
  have hread := (params_persist (.ofDirectory "s") ["s"] _).2.2.2.2 hunhashed
  have hrefused := (params_persist (.ofDirectory "s") ["s"] _).2.2.2.2 hbare
  obtain ⟨reason, hreason, -⟩ := hrefused.2 .zeroWindow (by decide)
  exact ⟨⟨_, Prod.ext hunhashed rfl, hread.1 (by decide)⟩, _, Prod.ext hbare rfl, reason, hreason⟩

end DedupArchive.Descriptor
