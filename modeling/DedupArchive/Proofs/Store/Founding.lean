/-
  DedupArchive/Proofs/Store/Founding.lean
  =======================================
  **What a store that could not be made leaves behind.**

  A store is made in stages: its directory, the directories of the blobs, the
  catalog, the descriptor.  Up to the last stage nothing says that the directory
  is a store.  The descriptor itself is three files, and the first of them is what
  makes the directory one.  So where this can be written and another cannot, a
  directory that was not made a store counts as one.
-/
import DedupArchive.Proofs.Files.Making
import DedupArchive.Proofs.Store.Refusing

namespace DedupArchive

open DedupArchive.Path (IsStep)

variable {t t' t'' : FileTree} {root : Path} {p : Params}

/-! ### The first part of a descriptor -/

namespace Descriptor

theorem isThere_iff : isThere t root = true ↔ Path.Taken (folder root ++ ["name"]) ∧
    t.Way [] (folder root) ∧ t.entry? ((folder root).plain ++ ["name"]) ≠ none := by
  rw [isThere, join_folder]
  exact FileTree.reaches_name_iff (by decide)

theorem way_folder_iff : t.Way [] (folder root) ↔
    t.Way [] root.stem ∧ t.entry? (folder root).plain = some .directory := by
  have hstep : IsStep "format" := by decide
  rw [folder_eq, FileTree.way_append, hstep.plain_append, ← Path.plain]
  refine and_congr_right fun h => ?_
  rw [FileTree.Way, FileTree.Way, hstep.step_eq]
  exact and_iff_right h.entry_last

/-- What is there stays there as long as nothing is removed. -/
theorem isThere_mono (hkeeps : t.KeepsDirectories t')
    (hstays : ∀ q, t.entry? q ≠ none → t'.entry? q ≠ none) (h : isThere t root = true) :
    isThere t' root = true := by
  rw [isThere_iff] at h ⊢
  obtain ⟨htaken, hway, hentry⟩ := h
  exact ⟨htaken, hway.keep hkeeps, hstays _ hentry⟩

theorem isThere_of_isPartOf (hpart : t.IsPartOf t') (h : isThere t root = true) : isThere t' root = true := by
  refine isThere_mono (fun q hq => hpart q _ hq) ?_ h
  intro q hq
  obtain ⟨entry, hentry⟩ := Option.ne_none_iff_exists'.mp hq
  rw [hpart q entry hentry]
  simp

theorem isThere_of_grows {places : Set Path} (hway : t.Way [] root.stem) (h : t.Grows t' places)
    (hplaces : ∀ rest, (folder root).plain ++ rest ∉ places) : isThere t' root = isThere t root := by
  have hfolder := h.alters.same _ (hplaces [])
  rw [List.append_nil] at hfolder
  rw [Bool.eq_iff_iff, isThere_iff, isThere_iff, way_folder_iff, way_folder_iff, hfolder,
    h.alters.same _ (hplaces ["name"])]
  simp only [hway, hway.keep h.keeps, true_and]

theorem refusal_of_taken (h : Path.Taken (folder root ++ ["name"])) : root.refusal? = none := by
  rw [folder_eq, List.append_assoc] at h
  have htaken : Path.Taken root := by
    rcases root.eq_stem_or with heq | heq
    · rw [heq]
      exact h.of_append
    · rw [heq]
      exact h.exchange (by simp) (by simp) (by decide) (by decide)
  exact htaken.1

/-! ### Writing a descriptor -/

def IsFree (t : FileTree) (root : Path) (name : String) : Prop :=
  Path.Taken (folder root ++ [name]) ∧ t.entry? ((folder root).plain ++ [name]) ≠ some .directory

/-- Whether a descriptor is begun and not finished: the part that makes the
    directory a store can be written, and another one cannot. -/
structure Halts (t : FileTree) (root : Path) : Prop where
  folder : t.entry? (folder root).plain = none ∨ t.entry? (folder root).plain = some .directory
  begun : IsFree t root "name"
  halted : ∃ name ∈ ["version", "chunking"], ¬ IsFree t root name

theorem halts_congr
    (hsame : ∀ rest, t'.entry? ((folder root).plain ++ rest) = t.entry? ((folder root).plain ++ rest)) :
    Halts t' root ↔ Halts t root := by
  have hfolder := hsame []
  rw [List.append_nil] at hfolder
  have hfree (name : String) : IsFree t' root name ↔ IsFree t root name := by
    rw [IsFree, IsFree, hsame]
  constructor
  · rintro ⟨h, hbegun, name, hname, hhalted⟩
    exact ⟨hfolder ▸ h, (hfree _).mp hbegun, name, hname, fun h => hhalted ((hfree name).mpr h)⟩
  · rintro ⟨h, hbegun, name, hname, hhalted⟩
    exact ⟨hfolder ▸ h, (hfree _).mpr hbegun, name, hname, fun h => hhalted ((hfree name).mp h)⟩

theorem grows_writeFiles {parts : List (String × String)} (hstep : ∀ part ∈ parts, IsStep part.1)
    {result : Except StoreError Unit} (h : writeFiles t (folder root) parts = (result, t')) :
    t.Grows t' (places root parts) := by
  induction parts generalizing t with
  | nil =>
    cases h
    exact .refl _
  | cons part rest ih =>
    obtain ⟨hname, hrest⟩ := List.forall_mem_cons.mp hstep
    rw [writeFiles, join_folder, FileTree.writeFile] at h
    split at h
    · cases h
      exact .refl _
    · rename_i hput
      refine FileTree.Grows.trans ((FileTree.grows_putFile hname hput).mono ?_) ((ih hrest h).mono ?_)
      · rintro _ rfl
        exact ⟨part, List.mem_cons_self, rfl⟩
      · rintro _ ⟨other, hother, rfl⟩
        exact ⟨other, List.mem_cons_of_mem part hother, rfl⟩

theorem exists_not_isFree {parts : List (String × String)} (hstep : ∀ part ∈ parts, IsStep part.1)
    (hway : t.Way [] (folder root)) {e : StoreError}
    (h : writeFiles t (folder root) parts = (.error e, t')) : ∃ part ∈ parts, ¬ IsFree t root part.1 := by
  induction parts generalizing t with
  | nil => cases h
  | cons part rest ih =>
    obtain ⟨hname, hrest⟩ := List.forall_mem_cons.mp hstep
    rw [writeFiles, join_folder, FileTree.writeFile] at h
    split at h
    · rename_i hput
      refine ⟨part, List.mem_cons_self, ?_⟩
      rintro ⟨htaken, hfree⟩
      obtain ⟨t₁, hput'⟩ := (FileTree.exists_putFile_iff hname).mpr ⟨htaken, hway, hfree⟩
      rw [hput] at hput'
      cases hput'
    · rename_i t₁ hput
      have hgrows := FileTree.grows_putFile hname hput
      obtain ⟨-, -, -, rfl⟩ := FileTree.eq_of_putFile hname hput
      obtain ⟨other, hother, hblocked⟩ := ih hrest (hway.keep hgrows.keeps) h
      refine ⟨other, List.mem_cons_of_mem part hother, ?_⟩
      rintro ⟨htaken, hfree⟩
      refine hblocked ⟨htaken, ?_⟩
      -- a part written before is a file
      rw [FileTree.entry_put (List.append_ne_nil_of_right_ne_nil _ (List.cons_ne_nil _ _))]
      split
      · simp
      · exact hfree

theorem grows_folder (hway : t.Way [] root.stem) {result : Except IoError Unit}
    (h : t.makeDirectories (folder root) = (result, t')) : t.Grows t' {(folder root).plain} := by
  have hstep : IsStep "format" := by decide
  rw [folder_eq] at h ⊢
  rw [hstep.plain_append]
  exact hway.grows_makeDirectories_name hstep h

theorem part_notMem_folder (name : String) :
    (folder root).plain ++ [name] ∉ ({(folder root).plain} : Set Path) := by simp

/-- Making the folder does not make the directory a store. -/
theorem isThere_of_folder (hrooted : t.IsRooted) (hway : t.Way [] root.stem)
    {result : Except IoError Unit} (h : t.makeDirectories (folder root) = (result, t')) :
    isThere t' root = isThere t root := by
  have hgrows := grows_folder hway h
  rw [Bool.eq_iff_iff]
  constructor
  · intro hthere
    rw [isThere_iff] at hthere ⊢
    obtain ⟨htaken, -, hentry⟩ := hthere
    rw [hgrows.alters.same _ (part_notMem_folder "name")] at hentry
    exact ⟨htaken, way_folder_iff.mpr ⟨hway, hrooted _ _ hentry⟩, hentry⟩
  · exact isThere_mono hgrows.keeps hgrows.stays

theorem isFree_of_folder (hway : t.Way [] root.stem) {result : Except IoError Unit}
    (h : t.makeDirectories (folder root) = (result, t')) (name : String) :
    IsFree t' root name ↔ IsFree t root name := by
  rw [IsFree, IsFree, (grows_folder hway h).alters.same _ (part_notMem_folder name)]

/-- The folder can be made, or is there, exactly if nothing else stands in its place. -/
theorem folder_of_made (h : t.makeDirectories (folder root) = (.ok (), t')) :
    t.entry? (folder root).plain = none ∨ t.entry? (folder root).plain = some .directory := by
  rw [or_iff_not_imp_left]
  intro hthere
  obtain ⟨e, he⟩ := Option.ne_none_iff_exists'.mp hthere
  have hlast := (FileTree.way_of_made h).entry_last
  rw [← Path.plain, FileTree.entry_of_makeDirectories h he] at hlast
  rw [he, hlast]

theorem exists_made (hway : t.Way [] root.stem) (htaken : Path.Taken (folder root))
    (hfolder : t.entry? (folder root).plain = none ∨ t.entry? (folder root).plain = some .directory) :
    ∃ t', t.makeDirectories (folder root) = (.ok (), t') := by
  have hstep : IsStep "format" := by decide
  have hshort : Path.isTooLong "format" = false := by decide
  have hrefusal := htaken.1
  rw [folder_eq] at hrefusal hfolder ⊢
  rw [hstep.plain_append] at hfolder
  rw [hway.makeDirectories_name hstep, hrefusal]
  rcases hfolder with hnone | hdirectory
  · simp [hnone, hshort]
  · simp [hdirectory]

/-- A descriptor that could not be written makes the directory a store if it is
    one that is begun and not finished. -/
theorem isThere_of_write (hrooted : t.IsRooted) (hway : t.Way [] root.stem) {e : StoreError}
    (h : write t root p = (.error e, t')) :
    isThere t' root = true ↔ isThere t root = true ∨ Halts t root := by
  rw [write] at h
  rcases hmake : t.makeDirectories (folder root) with ⟨cause | _, t₁⟩
  · rw [hmake] at h
    cases h
    rw [isThere_of_folder hrooted hway hmake, or_iff_left]
    rintro ⟨hfolder, ⟨htaken, -⟩, -⟩
    obtain ⟨t₂, hmade⟩ := exists_made hway htaken.of_append hfolder
    rw [hmake] at hmade
    cases hmade
  · rw [hmake] at h
    dsimp only at h
    have hfree (name : String) := isFree_of_folder hway hmake name
    have hfolder : t₁.Way [] (folder root) := FileTree.way_of_made hmake
    have hsteps := @isStep_of_mem_files p
    obtain ⟨part, hpart, hblocked⟩ := exists_not_isFree hsteps hfolder h
    rw [← isThere_of_folder hrooted hway hmake]
    rw [files] at h hsteps
    obtain ⟨hname, hrest⟩ := List.forall_mem_cons.mp hsteps
    rw [writeFiles, join_folder, FileTree.writeFile] at h
    rcases hput : t₁.putFile (folder root ++ ["name"]) (.file (Bytes.ofText s!"{storeKind}\n")) with
      cause | t₂
    · rw [hput] at h
      cases h
      rw [or_iff_left]
      rintro ⟨-, hbegun, -⟩
      obtain ⟨htaken, hnone⟩ := (hfree "name").mpr hbegun
      obtain ⟨t₂, hput'⟩ := (FileTree.exists_putFile_iff hname).mpr ⟨htaken, hfolder, hnone⟩
      rw [hput] at hput'
      cases hput'
    · rw [hput] at h
      have hgrows := grows_writeFiles hrest h
      obtain ⟨htaken, -, hnone, rfl⟩ := FileTree.eq_of_putFile hname hput
      have hthere : isThere (t₁.put ((folder root).plain ++ ["name"]) (.file (Bytes.ofText s!"{storeKind}\n")))
          root = true := by
        refine isThere_iff.mpr ⟨htaken, hfolder.keep (FileTree.grows_putFile hname hput).keeps, ?_⟩
        rw [FileTree.entry_put (List.append_ne_nil_of_right_ne_nil _ (List.cons_ne_nil _ _)), if_pos rfl]
        simp
      have hhalts : Halts t root := by
        refine ⟨folder_of_made hmake, (hfree "name").mp ⟨htaken, hnone⟩, part.1, ?_, ?_⟩
        · simp only [files, List.mem_cons, List.not_mem_nil, or_false] at hpart
          rcases hpart with rfl | rfl | rfl
          · exact absurd ⟨htaken, hnone⟩ hblocked
          · simp
          · simp
        · exact fun h => hblocked ((hfree part.1).mpr h)
      exact iff_of_true (isThere_mono hgrows.keeps hgrows.stays hthere) (Or.inr hhalts)

end Descriptor

/-! ### The stages before the descriptor -/

namespace CatalogFile

variable {name : String} (hname : IsStep name)

include hname

theorem grows_hold {result : Except CatalogError Entry}
    (h : hold t (root ++ [name]) = (result, t')) : t.Grows t' {root.plain ++ [name]} := by
  rw [hold, hname.plain_append] at h
  split at h
  · cases h
    exact .refl _
  · split at h
    · cases h
      exact .refl _
    · cases h
      exact .refl _
    · split at h
      · rename_i hput
        cases h
        have hgrows := FileTree.grows_putFile hname hput
        rwa [(Path.isStraight_plain root).plain_eq] at hgrows
      · cases h
        exact .refl _

theorem grows_open (hway : t.Way [] root) {result : Except CatalogError Catalog}
    (h : CatalogFile.open t (root ++ [name]) = (result, t')) : t.Grows t' {root.plain ++ [name]} := by
  rw [CatalogFile.open] at h
  split at h
  · rename_i hhold
    cases h
    exact grows_hold hname hhold
  · rename_i e held hhold
    have hgrows := grows_hold hname hhold
    obtain ⟨-, hfile, hentry, -⟩ := spec_of_hold hname hhold
    split at h
    · cases h
      exact hgrows
    · cases h
      rw [write, hname.plain_append]
      refine hgrows.trans (FileTree.grows_put (hgrows.keeps _ hway.entry_last) ?_)
      rw [hentry]
      simpa using hfile
    · cases h
      exact hgrows

end CatalogFile

namespace Home

def partPlaces (root : Path) : Set Path :=
  { q | ∃ name ∈ ["objects", "tmp", catalogFile], q = root.plain ++ [name] }

theorem folder_notMem_parts (rest : Path) : (Descriptor.folder root).plain ++ rest ∉ partPlaces root := by
  rintro ⟨name, hname, heq⟩
  rw [plain_folder, List.append_assoc, List.append_cancel_left_eq] at heq
  have hformat : "format" = name := List.head_eq_of_cons_eq heq
  subst hformat
  revert hname
  decide

theorem grows_directory (hway : t.Way [] root.stem) {name : String} (hname : IsStep name)
    (hpart : name ∈ ["objects", "tmp", catalogFile]) {result : Except IoError Unit}
    (h : t.makeDirectories (root.join name) = (result, t')) : t.Grows t' (partPlaces root) := by
  rw [Path.join_eq] at h
  refine (hway.grows_makeDirectories_name hname h).mono ?_
  rintro _ rfl
  exact ⟨name, hpart, by rw [Path.plain_stem]⟩

theorem grows_prepare (hway : t.Way [] root.stem) {result : Except BlobError Unit}
    (h : BlobDirectory.prepare t root = (result, t')) : t.Grows t' (partPlaces root) := by
  rw [BlobDirectory.prepare] at h
  split at h
  · rename_i hmake
    cases h
    exact grows_directory hway (by decide) (by decide) hmake
  · rename_i hmake
    have hgrows : t.Grows _ (partPlaces root) := grows_directory hway (by decide) (by decide) hmake
    have hway := hway.keep hgrows.keeps
    split at h
    · rename_i hmake'
      cases h
      exact hgrows.trans (grows_directory hway (by decide) (by decide) hmake')
    · rename_i hmake'
      cases h
      exact hgrows.trans (grows_directory hway (by decide) (by decide) hmake')

theorem grows_openParts (hway : t.Way [] root.stem) {result : Except StoreError Unit}
    (h : openParts t root = (result, t')) : t.Grows t' (partPlaces root) := by
  rw [openParts] at h
  split at h
  · rename_i hprepare
    cases h
    exact grows_prepare hway hprepare
  · rename_i t₁ hprepare
    have hgrows := grows_prepare hway hprepare
    have hcatalog {result : Except CatalogError Catalog} {t₂ : FileTree}
        (hopen : CatalogFile.open t₁ (catalogPath root) = (result, t₂)) : t₁.Grows t₂ (partPlaces root) := by
      rw [catalogPath_eq] at hopen
      refine (CatalogFile.grows_open isStep_catalogFile (hway.keep hgrows.keeps) hopen).mono ?_
      rintro _ rfl
      exact ⟨catalogFile, by decide, by rw [Path.plain_stem]⟩
    split at h
    · rename_i hopen
      cases h
      exact hgrows.trans (hcatalog hopen)
    · rename_i hopen
      cases h
      exact hgrows.trans (hcatalog hopen)

/-- What a store that could not be made leaves of a descriptor. -/
theorem isThere_of_establish (hrooted : t.IsRooted) {e : StoreError} (h : establish t root p = (.error e, t')) :
    Descriptor.isThere t' root = true ↔ ∃ t₁, t.makeDirectories root = (.ok (), t₁) ∧
      (Descriptor.isThere t₁ root = true ∨
        ∃ t₂, openParts t₁ root = (.ok (), t₂) ∧ Descriptor.Halts t₂ root) := by
  rw [establish] at h
  rcases hmake : t.makeDirectories root with ⟨cause | _, t₁⟩
  · rw [hmake] at h
    cases h
    simp only [Prod.mk.injEq, reduceCtorEq, false_and, exists_false, iff_false]
    intro hthere
    obtain ⟨htaken, hway, -⟩ := Descriptor.isThere_iff.mp hthere
    rcases FileTree.refused_or_not_way hmake with hrefused | hnot
    · exact hrefused (Descriptor.refusal_of_taken htaken)
    · exact hnot (FileTree.way_stem_iff.mp (Descriptor.way_folder_iff.mp hway).1)
  · rw [hmake] at h
    dsimp only at h
    have hway : t₁.Way [] root.stem := FileTree.way_stem_iff.mpr (FileTree.way_of_made hmake)
    have hgrows := FileTree.grows_makeDirectories hrooted hmake
    simp only [Prod.mk.injEq, true_and, exists_eq_left']
    rcases hparts : openParts t₁ root with ⟨cause | _, t₂⟩
    · rw [hparts] at h
      cases h
      rw [Descriptor.isThere_of_grows hway (grows_openParts hway hparts) folder_notMem_parts]
      simp
    · rw [hparts] at h
      dsimp only at h
      have hgrows' := grows_openParts hway hparts
      rw [← Descriptor.isThere_of_grows hway hgrows' folder_notMem_parts]
      simp only [Prod.mk.injEq, true_and, exists_eq_left']
      split at h
      · rename_i hwrite
        cases h
        exact Descriptor.isThere_of_write (hgrows'.rooted (hgrows.rooted hrooted))
          (hway.keep hgrows'.keeps) hwrite
      · cases h

theorem not_makeDirectories_of_file (hthere : t.reaches root = true) (hfile : t.isDirectory root = false) :
    t.makeDirectories root ≠ (.ok (), t') := by
  intro hmake
  rw [FileTree.reaches] at hthere
  rw [FileTree.isDirectory] at hfile
  cases hfind : t.find root with
  | error cause =>
    rw [hfind] at hthere
    cases hthere
  | ok e =>
    have hentry := FileTree.entry_of_makeDirectories hmake (FileTree.entry_of_find hfind)
    have hlast : t'.entry? root.plain = some .directory := (FileTree.way_of_made hmake).entry_last
    rw [hlast] at hentry
    cases hentry
    rw [hfind] at hfile
    cases hfile

/-! ### Paths without steps up -/

section Forward

variable (hforward : ".." ∉ root)

include hforward

/-- Making the directory itself changes nothing below its folder. -/
theorem entry_of_forward (hrooted : t.IsRooted) {result : Except IoError Unit}
    (h : t.makeDirectories root = (result, t')) (rest : Path) :
    t'.entry? ((Descriptor.folder root).plain ++ rest) = t.entry? ((Descriptor.folder root).plain ++ rest) := by
  apply (FileTree.grows_makeDirectories hrooted h).alters.same
  intro hpassed
  have hprefix : (Descriptor.folder root).plain ++ rest <+: root.plain :=
    Path.prefix_of_passed hforward hpassed
  have hlength := hprefix.length_le
  rw [plain_folder] at hlength
  simp only [List.length_append, List.length_cons, List.length_nil] at hlength
  omega

theorem isThere_of_forward (hrooted : t.IsRooted) {result : Except IoError Unit}
    (h : t.makeDirectories root = (result, t')) (hthere : Descriptor.isThere t' root = true) :
    Descriptor.isThere t root = true := by
  rw [Descriptor.isThere_iff] at hthere ⊢
  obtain ⟨htaken, -, hentry⟩ := hthere
  rw [entry_of_forward hforward hrooted h] at hentry
  refine ⟨htaken, hrooted.way ?_ (hrooted _ _ hentry), hentry⟩
  rw [Descriptor.folder_eq, List.mem_append, not_or]
  refine ⟨?_, by decide⟩
  intro hup
  apply hforward
  rcases root.eq_stem_or with heq | heq
  · rwa [heq]
  · rw [heq]
    exact List.mem_append_left _ hup

theorem halts_of_forward (hrooted : t.IsRooted) {t₁ t₂ : FileTree}
    (hmake : t.makeDirectories root = (.ok (), t₁)) {result : Except StoreError Unit}
    (hparts : openParts t₁ root = (result, t₂)) : Descriptor.Halts t₂ root ↔ Descriptor.Halts t root := by
  have hway : t₁.Way [] root.stem := FileTree.way_stem_iff.mpr (FileTree.way_of_made hmake)
  apply Descriptor.halts_congr
  intro rest
  rw [(grows_openParts hway hparts).alters.same _ (folder_notMem_parts rest)]
  exact entry_of_forward hforward hrooted hmake rest

end Forward

/-! ### Stores that could not be made -/

/-- Without a descriptor a directory is refused at most as no directory. -/
theorem eq_notADirectory_of_absent (hnone : Descriptor.isThere t root = false) {text : String}
    {reason : Refusal} (h : (create t root p).1 = .error (.notAStore text reason) ∨
      (openOrCreate t root p).1 = .error (.notAStore text reason)) : reason = .notADirectory := by
  rw [openOrCreate, hnone, if_neg Bool.false_ne_true, or_self] at h
  have he : StoreError.IsRefusal (.notAStore text reason) := trivial
  cases Attempt.refused_of_create he h with
  | occupied => rfl
  | alreadyAStore _ _ hthere =>
    rw [hnone] at hthere
    cases hthere

section Failed

variable {e : StoreError} (hrooted : t.IsRooted) (hnone : Descriptor.isThere t root = false)
  (hcreate : create t root p = (.error e, t'))

include hrooted hnone hcreate

theorem isThere_of_create : Descriptor.isThere t' root = true ↔ p.validate = .ok () ∧
    ∃ t₁, t.makeDirectories root = (.ok (), t₁) ∧ (Descriptor.isThere t₁ root = true ∨
      ∃ t₂, openParts t₁ root = (.ok (), t₂) ∧ Descriptor.Halts t₂ root) := by
  rcases create_cases t root p with ⟨cause, hrefused⟩ | ⟨hvalid, -, -, hestablish⟩
  -- a directory that is refused is left alone, and would not have been made
  · have hperform : create t root p = (.error cause, t) := hrefused.perform_eq
    rw [hperform] at hcreate
    cases hcreate
    simp only [hnone, Bool.false_eq_true, false_iff]
    rintro ⟨hvalid, t₁, hmake, -⟩
    cases hrefused with
    | invalidParams hinvalid =>
      rw [hvalid] at hinvalid
      cases hinvalid
    | occupied _ hthere hfile => exact not_makeDirectories_of_file hthere hfile hmake
    | alreadyAStore _ _ hthere =>
      rw [hnone] at hthere
      cases hthere
  · rw [hestablish] at hcreate
    rw [isThere_of_establish hrooted hcreate]
    exact (and_iff_right hvalid).symm

theorem isThere_of_create_forward (hforward : ".." ∉ root) :
    Descriptor.isThere t' root = true ↔ p.validate = .ok () ∧
      ∃ t₁ t₂, t.makeDirectories root = (.ok (), t₁) ∧ openParts t₁ root = (.ok (), t₂) ∧
        Descriptor.Halts t root := by
  rw [isThere_of_create hrooted hnone hcreate]
  refine and_congr_right fun _ => exists_congr fun t₁ => ?_
  constructor
  · rintro ⟨hmake, hthere | ⟨t₂, hparts, hhalts⟩⟩
    · rw [isThere_of_forward hforward hrooted hmake hthere] at hnone
      cases hnone
    · exact ⟨t₂, hmake, hparts, (halts_of_forward hforward hrooted hmake hparts).mp hhalts⟩
  · rintro ⟨t₂, hmake, hparts, hhalts⟩
    exact ⟨hmake, Or.inr ⟨t₂, hparts, (halts_of_forward hforward hrooted hmake hparts).mpr hhalts⟩⟩

end Failed

/-- **Half-made directories.**  A directory in which there was no store could not
    be made one.  It counts as a store afterwards exactly if the directory itself
    could be made and then, by the steps up of its path, already was one, or its
    descriptor was begun and not finished.  For a path without steps up the second
    is told by what stood in the folder before.  A directory that does not count
    as a store is, also once something is removed, refused at most as no directory. -/
theorem failed_create_leaves {e : StoreError} (hrooted : t.IsRooted)
    (hnone : Descriptor.isThere t root = false) (hcreate : create t root p = (.error e, t')) :
    (Descriptor.isThere t' root = true ↔ p.validate = .ok () ∧
      ∃ t₁, t.makeDirectories root = (.ok (), t₁) ∧ (Descriptor.isThere t₁ root = true ∨
        ∃ t₂, openParts t₁ root = (.ok (), t₂) ∧ Descriptor.Halts t₂ root)) ∧
      (".." ∉ root → (Descriptor.isThere t' root = true ↔ p.validate = .ok () ∧
        ∃ t₁ t₂, t.makeDirectories root = (.ok (), t₁) ∧ openParts t₁ root = (.ok (), t₂) ∧
          Descriptor.Halts t root)) ∧
      (Descriptor.isThere t' root = false → ∀ t'' : FileTree, t''.IsPartOf t' →
        ∀ q text reason, (create t'' root q).1 = .error (.notAStore text reason) ∨
          (openOrCreate t'' root q).1 = .error (.notAStore text reason) → reason = .notADirectory) := by
  refine ⟨isThere_of_create hrooted hnone hcreate, isThere_of_create_forward hrooted hnone hcreate, ?_⟩
  intro hleft t'' hpart q text reason
  apply eq_notADirectory_of_absent
  cases hthere : Descriptor.isThere t'' root with
  | false => rfl
  | true =>
    rw [Descriptor.isThere_of_isPartOf hpart hthere] at hleft
    cases hleft

/-- Why something failed, whatever it would have given. -/
theorem eq_error_of_map {ε α : Type} {result : Except ε α} {e : ε}
    (h : result.map (fun _ => ()) = .error e) : result = .error e := by
  cases result with
  | error cause =>
    cases h
    rfl
  | ok value => cases h

def blocked : FileTree := (FileTree.ofDirectory "s").put ["s", "objects"] (.file [])

theorem isRooted_blocked : blocked.IsRooted := by
  have hgrows : FileTree.Grows (.ofDirectory "s") blocked {["s", "objects"]} :=
    @FileTree.grows_put _ ["s"] "objects" _ (by decide +kernel) (by decide +kernel)
  exact hgrows.rooted (FileTree.isRooted_ofDirectory "s")

/-- Nothing is left that would keep the directory from being made a store. -/
theorem failed_create_leaves_blocked : ∃ t',
    create blocked ["s"] .standard = (.error (.blob (.io .fileExists)), t') ∧
      Descriptor.isThere t' ["s"] = false ∧
        ∀ t'' : FileTree, t''.IsPartOf t' → ∀ text reason,
          (create t'' ["s"] .standard).1 = .error (.notAStore text reason) → reason = .notADirectory := by
  have hfails : (create blocked ["s"] .standard).1 = .error (.blob (.io .fileExists)) :=
    eq_error_of_map (by decide +kernel)
  rcases hcreate : create blocked ["s"] .standard with ⟨result, t'⟩
  rw [hcreate] at hfails
  cases hfails
  obtain ⟨-, hforward, hagain⟩ := failed_create_leaves isRooted_blocked (by decide +kernel) hcreate
  have hleft : Descriptor.isThere t' ["s"] = false := by
    rw [← Bool.not_eq_true, hforward (by decide)]
    rintro ⟨-, t₁, t₂, -, -, -, -, name, hname, hhalted⟩
    apply hhalted
    simp only [List.mem_cons, List.not_mem_nil, or_false] at hname
    rcases hname with rfl | rfl
    · exact ⟨⟨by decide +kernel, by decide +kernel⟩, by decide +kernel⟩
    · exact ⟨⟨by decide +kernel, by decide +kernel⟩, by decide +kernel⟩
  exact ⟨t', rfl, hleft, fun t'' hpart text reason h => hagain hleft t'' hpart _ text reason (Or.inl h)⟩

def halfway : FileTree :=
  ((FileTree.ofDirectory "s").put ["s", "format"] .directory).put ["s", "format", "version"] .directory

theorem isRooted_halfway : halfway.IsRooted := by
  have hfolder : FileTree.Grows (.ofDirectory "s")
      ((FileTree.ofDirectory "s").put ["s", "format"] .directory) {["s", "format"]} :=
    @FileTree.grows_put _ ["s"] "format" _ (by decide +kernel) (by decide +kernel)
  have hpart : FileTree.Grows ((FileTree.ofDirectory "s").put ["s", "format"] .directory) halfway
      {["s", "format", "version"]} :=
    @FileTree.grows_put _ ["s", "format"] "version" _ (by decide +kernel) (by decide +kernel)
  exact hpart.rooted (hfolder.rooted (FileTree.isRooted_ofDirectory "s"))

/-- A directory that could not be made a store counts as one.  Once what stood in
    the way is removed, it can neither be made a store nor be opened as one. -/
theorem failed_create_leaves_descriptor : halfway.IsRooted ∧ Descriptor.isThere halfway ["s"] = false ∧
    ∃ t', create halfway ["s"] .standard = (.error (.io .isADirectory), t') ∧
      Descriptor.isThere t' ["s"] = true ∧
        ∃ t'', t'.removeDirectory ["s", "format", "version"] = (.ok (), t'') ∧
          (create t'' ["s"] .standard).1 = .error (.notAStore "s" .alreadyAStore) ∧
            (openOrCreate t'' ["s"] .standard).1 = .error (.notAStore "s" (.missing "format/version")) := by
  have hfails : (create halfway ["s"] .standard).1 = .error (.io .isADirectory) :=
    eq_error_of_map (by decide +kernel)
  refine ⟨isRooted_halfway, by decide +kernel, _, Prod.ext hfails rfl, by decide +kernel, ?_⟩
  refine ⟨_, Prod.ext (by decide +kernel) rfl, ?_, ?_⟩
  · exact eq_error_of_map (by decide +kernel)
  · exact eq_error_of_map (by decide +kernel)

end Home

end DedupArchive
