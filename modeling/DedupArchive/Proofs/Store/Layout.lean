/-
  DedupArchive/Proofs/Store/Layout.lean
  =====================================
  **What lies in a store directory.**

  Making a store leaves directories for the blobs, a descriptor and a catalog at
  fixed places below the root.  Whoever opens the directory looks at these and at
  nothing else.  So as long as they stand there the directory is opened as the
  same store, and opening it changes nothing.
-/
import DedupArchive.Proofs.Store.Parts

namespace DedupArchive

open DedupArchive.Path (IsStep)

namespace Home

def fresh (root : Path) (p : Params) : Home := ⟨root, p, ⟨catalogPath root, none⟩⟩

structure Layout (t : FileTree) (root : Path) (p : Params) : Prop where
  leads : t.Leads root
  objects : t.Leads (BlobDirectory.objects root)
  staging : t.Leads (BlobDirectory.staging root)
  folder : t.Leads (Descriptor.folder root)
  descriptor : Descriptor.Stands t root (Descriptor.files p)
  short : ∀ names, names <+: catalogPath root →
    (Path.text (Path.plain names)).utf8ByteSize ≤ CatalogFile.longestPath
  catalog : ∃ rows, t.entry? (catalogPath root).plain = some (.catalog rows)

variable {t t' : FileTree} {root : Path} {p : Params}

theorem isStep_catalogFile : IsStep catalogFile := by decide

theorem catalogPath_eq (root : Path) : catalogPath root = root.stem ++ [catalogFile] :=
  root.join_eq catalogFile

theorem plain_catalogPath (root : Path) : (catalogPath root).plain = root.plain ++ [catalogFile] :=
  isStep_catalogFile.plain_join root

theorem plain_folder (root : Path) : (Descriptor.folder root).plain = root.plain ++ ["format"] :=
  IsStep.plain_join (by decide) root

theorem plain_objects (root : Path) : (BlobDirectory.objects root).plain = root.plain ++ ["objects"] :=
  IsStep.plain_join (by decide) root

/-! ### Places of their own -/

theorem catalogPath_notMem_blobs : (catalogPath root).plain ∉ BlobDirectory.places root := by
  rintro ⟨d, hplace⟩
  simp only [plain_objects, plain_catalogPath, List.append_assoc, List.append_cancel_left_eq] at hplace
  exact absurd (List.head_eq_of_cons_eq hplace) (by decide)

theorem part_notMem_blobs (name : String) :
    (Descriptor.folder root).plain ++ [name] ∉ BlobDirectory.places root := by
  rintro ⟨d, hplace⟩
  simp only [plain_objects, plain_folder, List.append_assoc, List.append_cancel_left_eq] at hplace
  exact absurd (List.head_eq_of_cons_eq hplace) (by decide)

theorem part_ne_catalogPath (name : String) :
    (Descriptor.folder root).plain ++ [name] ≠ (catalogPath root).plain := by
  intro hplace
  simp only [plain_catalogPath, plain_folder, List.append_assoc, List.append_cancel_left_eq] at hplace
  exact absurd (List.head_eq_of_cons_eq hplace) (by decide)

/-! ### What keeps the layout -/

namespace Layout

variable (h : Layout t root p)

include h

theorem alter {places : Set Path} (halters : t.AltersOnly t' places)
    (hparts : ∀ name, (Descriptor.folder root).plain ++ [name] ∉ places) {rows : Catalog}
    (hcatalog : t'.entry? (catalogPath root).plain = some (.catalog rows)) : Layout t' root p where
  leads := h.leads.keep halters.keeps
  objects := h.objects.keep halters.keeps
  staging := h.staging.keep halters.keeps
  folder := h.folder.keep halters.keeps
  descriptor part hpart := by
    rw [halters.same _ (hparts part.1)]
    exact h.descriptor part hpart
  short := h.short
  catalog := ⟨rows, hcatalog⟩

/-- Whatever is done to the blobs, and whatever is written as the catalog, the
    directory stays the same store. -/
theorem write (halters : t.AltersOnly t' (BlobDirectory.places root)) (rows : Catalog) :
    Layout (CatalogFile.write t' (catalogPath root) rows) root p := by
  obtain ⟨before, hbefore⟩ := h.catalog
  rw [← halters.same _ catalogPath_notMem_blobs] at hbefore
  have htop : (catalogPath root).plain ≠ [] := by
    rw [plain_catalogPath]
    exact List.append_ne_nil_of_right_ne_nil _ (List.cons_ne_nil _ _)
  have hput : t'.AltersOnly (CatalogFile.write t' (catalogPath root) rows) {(catalogPath root).plain} := by
    apply FileTree.altersOnly_put htop
    rw [hbefore]
    exact nofun
  have hwritten : FileTree.entry? (CatalogFile.write t' (catalogPath root) rows) (catalogPath root).plain =
      some (.catalog rows) := by
    rw [CatalogFile.write, FileTree.entry_put htop, if_pos rfl]
  have hkept := h.alter halters part_notMem_blobs hbefore
  exact hkept.alter hput part_ne_catalogPath hwritten

/-! ### Opening -/

theorem taken_catalogPath : Path.Taken (catalogPath root) := by
  rw [catalogPath_eq]
  exact h.descriptor.taken_chunking.exchange (by decide) (by decide) (by decide) (by decide)

theorem stem : t.Leads root.stem := h.descriptor.leads_stem h.folder.way

/-- What stands on the way to the catalog is taken by the name of its place. -/
theorem taken_plain {names : List String} (hnames : names <+: catalogPath root) :
    Path.Taken (Path.plain names) := by
  rw [Path.taken_iff]
  constructor
  · intro name hname
    exact (Path.taken_iff.mp h.taken_catalogPath).1 name (hnames.subset (Path.mem_of_mem_plain hname))
  · exact Nat.le_trans (h.short names hnames) (by decide)

theorem leads_plain {names : List String} (hnames : names <+: root.stem) : t.Leads (Path.plain names) := by
  have hway := h.stem.way
  obtain ⟨rest, hrest⟩ := hnames
  rw [← hrest, FileTree.way_append] at hway
  refine ⟨h.taken_plain ?_, hway.1.plain⟩
  rw [catalogPath_eq, ← hrest, List.append_assoc]
  exact List.prefix_append names _

section Catalog

variable {rows : Catalog} (hrows : t.entry? (catalogPath root).plain = some (.catalog rows))

include hrows

theorem find_plain : t.find (catalogPath root).plain = .ok (.catalog rows) := by
  have htaken := h.taken_plain (List.prefix_refl (catalogPath root))
  have hleads := h.leads_plain (List.prefix_refl root.stem)
  rw [catalogPath_eq, isStep_catalogFile.plain_append] at htaken hrows ⊢
  refine hleads.find_name htaken isStep_catalogFile ?_
  rw [(Path.isStraight_plain _).plain_eq]
  exact hrows

theorem isInReach : CatalogFile.isInReach t [] (catalogPath root) = true := by
  apply CatalogFile.isInReach_of_find
  · intro names hnames _
    exact h.short names hnames
  · intro names hnames _
    have hprefix := hnames
    rw [catalogPath_eq, List.prefix_concat_iff] at hprefix
    -- the whole path is that of the catalog, and each shorter one that of a directory
    rcases hprefix with heq | hprefix
    · rw [heq, ← catalogPath_eq]
      exact ⟨_, h.find_plain hrows⟩
    · refine ⟨.directory, ?_⟩
      have hleads := h.leads_plain hprefix
      show t.find (Path.plain names) = _
      rw [FileTree.find, hleads.locate]

end Catalog

end Layout

/-! ### Making -/

end Home

end DedupArchive
