/-
  DedupArchive/Proofs/Blobs/Directory.lean
  ========================================
  **Blobs in a directory are kept.**

  A directory of blobs is ready if its two directories can be reached and every
  blob's path is taken, with no directory standing where a blob would.  Then each
  operation is a look at, or a change of, the one place of the blob.
-/
import DedupArchive.Blobs.Directory
import DedupArchive.Proofs.Blobs.Faithful
import DedupArchive.Proofs.Digest.Written
import DedupArchive.Proofs.Files.Places

namespace DedupArchive

namespace Digest

theorem toHex_ne {d : Digest} {name : String} (h : name.utf8ByteSize ≠ 64) : d.toHex ≠ name := by
  rintro rfl
  exact h d.utf8ByteSize_toHex

theorem isTooLong_toHex (d : Digest) : Path.isTooLong d.toHex = false := by
  rw [Path.isTooLong, utf8ByteSize_toHex]
  rfl

theorem isStep_toHex (d : Digest) : Path.IsStep d.toHex := by
  refine ⟨?_, toHex_ne (by decide)⟩
  rw [Path.isIdle, Bool.or_eq_false_iff]
  exact ⟨decide_eq_false (toHex_ne (by decide)), decide_eq_false (toHex_ne (by decide))⟩

theorem step_toHex (place : Path) (d : Digest) : Path.step place d.toHex = place ++ [d.toHex] :=
  (isStep_toHex d).step_eq place

end Digest

namespace BlobDirectory

/-! ### Where a blob stands -/

theorem objectPath_eq (root : Path) (d : Digest) : objectPath root d = objects root ++ [d.toHex] := by
  obtain ⟨base, hjoin⟩ := root.exists_join
  rw [objectPath, objects, hjoin, Path.join_append_singleton (by decide)]

def place (s : BlobDirectory) (d : Digest) : Path := (objects s.root).plain ++ [d.toHex]

def entryOf (s : BlobDirectory) (d : Digest) : Option Entry := s.tree.entry? (s.place d)

theorem place_ne_nil (s : BlobDirectory) (d : Digest) : s.place d ≠ [] :=
  List.append_ne_nil_of_right_ne_nil _ (List.cons_ne_nil _ _)

theorem place_inj {s : BlobDirectory} {d e : Digest} (h : s.place d = s.place e) : d = e := by
  have hhex := List.append_cancel_left h
  exact Digest.toHex_injective (List.head_eq_of_cons_eq hhex)

/-- Whether the paths of blobs can be followed up to their last names. -/
structure Open (s : BlobDirectory) : Prop where
  leads : s.tree.Leads (objects s.root)
  taken : ∀ d, Path.Taken (objectPath s.root d)

section

variable {s : BlobDirectory} (h : s.Open) (d : Digest)

include h

theorem Open.locate : s.tree.locate (objectPath s.root d) =
    match s.entryOf d with
    | none => .error .noSuchFile
    | some e => .ok (s.place d, e) := by
  have htaken := h.taken d
  rw [objectPath_eq] at htaken ⊢
  exact h.leads.locate_name htaken (Digest.step_toHex _ d)

theorem Open.get : s.get d =
    match s.entryOf d with
    | none => .error (.notFound d)
    | some .directory => .error (.io .isADirectory)
    | some (.file data) => .ok data
    | some (.catalog _) => .ok [] := by
  rw [DedupArchive.BlobDirectory.get, FileTree.bytesAt, FileTree.find, h.locate]
  rcases s.entryOf d with _ | _ | _ | _ <;> rfl

theorem Open.contains : s.tree.contains (objectPath s.root d) = .ok (s.entryOf d).isSome := by
  rw [FileTree.contains, FileTree.find, h.locate]
  cases s.entryOf d <;> rfl

end

structure Ready (s : BlobDirectory) : Prop where
  objects : s.tree.Leads (objects s.root)
  staging : s.tree.Leads (staging s.root)
  taken : ∀ d, Path.Taken (objectPath s.root d)
  isFile : ∀ d, s.entryOf d ≠ some .directory

section

variable {s : BlobDirectory} (h : s.Ready) (d : Digest)

include h

theorem Ready.isOpen : s.Open := ⟨h.objects, h.taken⟩

theorem Ready.contains : s.tree.contains (objectPath s.root d) = .ok (s.entryOf d).isSome :=
  h.isOpen.contains d

theorem Ready.requireDirectory :
    s.tree.requireDirectory (DedupArchive.BlobDirectory.staging s.root) = .ok () := by
  rw [FileTree.requireDirectory, FileTree.find, h.staging.locate]

theorem Ready.get : s.get d =
    match s.entryOf d with
    | none => .error (.notFound d)
    | some (.file data) => .ok data
    | some _ => .ok [] := by
  rw [h.isOpen.get]
  cases hentry : s.entryOf d with
  | none => rfl
  | some e =>
    cases e with
    | directory => exact absurd hentry (h.isFile d)
    | file data => rfl
    | catalog rows => rfl

/-- The bytes of a blob are those of the file at its place. -/
theorem Ready.find : BlobStore.find s d =
    (s.entryOf d).map fun
      | .file data => data
      | _ => [] := by
  show (s.get d).toOption = _
  rw [h.get]
  rcases s.entryOf d with _ | _ | _ | _ <;> rfl

theorem Ready.writeFile (data : Bytes) : s.tree.writeFile (objectPath s.root d) data =
    .ok (s.tree.put (s.place d) (.file data)) := by
  have htaken := h.taken d
  rw [objectPath_eq] at htaken ⊢
  exact h.objects.putFile_name htaken (Digest.isStep_toHex d) _ (h.isFile d)

theorem Ready.removeFile : s.tree.removeFile (objectPath s.root d) =
    if (s.entryOf d).isSome then .ok ⟨s.tree.entries.erase (s.place d)⟩
    else .error .noSuchFile := by
  rw [FileTree.removeFile, h.isOpen.locate]
  cases hentry : s.entryOf d with
  | none => rfl
  | some e =>
    cases e with
    | directory => exact absurd hentry (h.isFile d)
    | file data => rfl
    | catalog rows => rfl

/-- A change of the one place keeps the store ready. -/
theorem Ready.change {tree : FileTree} {e : Option Entry}
    (hentry : ∀ q, tree.entry? q = if s.place d = q then e else s.tree.entry? q)
    (he : e ≠ some .directory) : Ready { s with tree } := by
  have hkeeps := FileTree.keepsDirectories_of_change (h.isFile d) hentry
  refine ⟨h.objects.keep hkeeps, h.staging.keep hkeeps, h.taken, ?_⟩
  intro d'
  show tree.entry? (s.place d') ≠ some .directory
  rw [hentry]
  split
  · exact he
  · exact h.isFile d'

end

/-! ### The operations -/

instance : FaithfulBlobs BlobDirectory where
  Ready := Ready
  put_spec {s} d data h := by
    show ∃ new s', s.put d data = (.ok new, s') ∧ _
    rw [put, h.contains, h.requireDirectory, h.writeFile]
    cases hentry : s.entryOf d with
    | some e =>
      refine ⟨false, s, rfl, h, ?_⟩
      intro d'
      by_cases heq : d = d'
      · subst heq
        rw [h.find, hentry, Option.map_some, Option.some_or]
      · rw [if_neg heq, Option.or_none]
    | none =>
      have hready : Ready { s with tree := s.tree.put (s.place d) (.file data) } :=
        h.change d (fun q => FileTree.entry_put (s.place_ne_nil d)) nofun
      refine ⟨true, _, rfl, hready, ?_⟩
      intro d'
      have hput : entryOf { s with tree := s.tree.put (s.place d) (.file data) } d' =
          if s.place d = s.place d' then some (.file data) else s.entryOf d' :=
        FileTree.entry_put (s.place_ne_nil d)
      rw [hready.find, h.find, hput]
      by_cases heq : d = d'
      · subst heq
        rw [if_pos rfl, if_pos rfl, hentry]
        rfl
      · rw [if_neg (fun hplace => heq (place_inj hplace)), if_neg heq, Option.or_none]
  erase_spec {s} d h := by
    show ∃ s', s.erase d = (.ok (), s') ∧ _
    rw [erase, h.removeFile]
    cases hentry : s.entryOf d with
    | none =>
      refine ⟨s, rfl, h, ?_⟩
      intro d'
      by_cases heq : d = d'
      · subst heq
        rw [if_pos rfl, h.find, hentry, Option.map_none]
      · rw [if_neg heq]
    | some e =>
      have hready : Ready { s with tree := ⟨s.tree.entries.erase (s.place d)⟩ } :=
        h.change d (fun q => FileTree.entry_erase (s.place_ne_nil d)) nofun
      refine ⟨_, rfl, hready, ?_⟩
      intro d'
      have herase : entryOf { s with tree := ⟨s.tree.entries.erase (s.place d)⟩ } d' =
          if s.place d = s.place d' then none else s.entryOf d' :=
        FileTree.entry_erase (s.place_ne_nil d)
      rw [hready.find, h.find, herase]
      by_cases heq : d = d'
      · subst heq
        rw [if_pos rfl, if_pos rfl, Option.map_none]
      · rw [if_neg (fun hplace => heq (place_inj hplace)), if_neg heq]
  digests_spec {s} h := by
    obtain ⟨names, hnames, hmem⟩ := h.objects.exists_names
    show ∃ stored, s.digests = .ok stored ∧ _
    rw [digests, hnames]
    refine ⟨_, rfl, ?_⟩
    intro d
    rw [List.mem_mergeSort, List.mem_filterMap, h.find, Option.isSome_map, Option.isSome_iff_ne_none]
    constructor
    · rintro ⟨name, hname, hread⟩
      rw [Digest.ofHex?_eq_some_iff] at hread
      subst hread
      exact (hmem _).mp hname
    · intro hthere
      exact ⟨d.toHex, (hmem _).mpr hthere, Digest.ofHex?_eq_some_iff.mpr rfl⟩

/-! ### A new store -/

theorem exists_base (root : Path) :
    ∃ base, objects root = base ++ ["objects"] ∧ staging root = base ++ ["tmp"] := by
  obtain ⟨base, hjoin⟩ := root.exists_join
  exact ⟨base, hjoin "objects", hjoin "tmp"⟩

/-- What is made once both directories are made. -/
theorem way_of_prepare {t t' : FileTree} {root : Path} (h : prepare t root = (.ok (), t')) :
    (objects root).refusal? = none ∧ (staging root).refusal? = none ∧
      t'.Way [] (objects root) ∧ t'.Way [] (staging root) := by
  obtain ⟨base, hobjects, hstaging⟩ := exists_base root
  rw [prepare] at h
  rcases hmake : t.makeDirectories (objects root) with ⟨_ | _, t₁⟩
  · rw [hmake] at h
    cases h
  · simp only [hmake] at h
    rcases hmake' : t₁.makeDirectories (staging root) with ⟨_ | _, t₂⟩
    · rw [hmake'] at h
      cases h
    · simp only [hmake'] at h
      cases h
      rw [hobjects] at hmake ⊢
      rw [hstaging] at hmake' ⊢
      obtain ⟨hrefusal, -, hway⟩ := FileTree.way_of_makeDirectories (by decide) hmake
      obtain ⟨hrefusal', hkeeps, hway'⟩ := FileTree.way_of_makeDirectories (by decide) hmake'
      exact ⟨hrefusal, hrefusal', hway.keep hkeeps, hway'⟩

/-- Where both directories are, nothing is made. -/
theorem prepare_of_leads {t : FileTree} {root : Path} (hobjects : t.Leads (objects root))
    (hstaging : t.Leads (staging root)) : prepare t root = (.ok (), t) := by
  obtain ⟨base, heq, heq'⟩ := exists_base root
  have hmade : t.makeDirectories (objects root) = (.ok (), t) := by
    rw [heq] at hobjects ⊢
    exact FileTree.makeDirectories_of_way (by decide) hobjects.taken.1 hobjects.way
  have hmade' : t.makeDirectories (staging root) = (.ok (), t) := by
    rw [heq'] at hstaging ⊢
    exact FileTree.makeDirectories_of_way (by decide) hstaging.taken.1 hstaging.way
  simp only [prepare, hmade, hmade']

/-- Once the directories are made, a store that has no blob is ready, and no bytes
    can be read from it. -/
theorem ready_of_prepare {t t' : FileTree} {root : Path} (hprepare : prepare t root = (.ok (), t'))
    (hempty : ∀ d, BlobStore.contains (⟨t', root⟩ : BlobDirectory) d = .ok false) :
    Ready ⟨t', root⟩ ∧ ∀ d, BlobStore.find (⟨t', root⟩ : BlobDirectory) d = none := by
  obtain ⟨hrefusal, hrefusal', hway, hway'⟩ := way_of_prepare hprepare
  have habsent (d : Digest) : Path.Taken (objectPath root d) ∧ entryOf ⟨t', root⟩ d = none := by
    have hcontains : t'.contains (objectPath root d) = .ok false := by
      have hcontains : BlobDirectory.contains ⟨t', root⟩ d = .ok false := hempty d
      rw [contains] at hcontains
      split at hcontains
      · rename_i hfound
        cases hcontains
        exact hfound
      · cases hcontains
    rw [objectPath_eq] at hcontains ⊢
    exact hway.of_contains_false (Digest.step_toHex _ d) hcontains
  -- the two paths have all names but the last in common with those of the blobs
  have hshort : (objects root).any Path.isTooLong = false ∧ (staging root).any Path.isTooLong = false := by
    obtain ⟨base, hobjects, hstaging⟩ := exists_base root
    have hany := (habsent (Digest.of [])).1.2
    rw [objectPath_eq, hobjects, List.any_append, Bool.or_eq_false_iff, List.any_append,
      Bool.or_eq_false_iff] at hany
    rw [hobjects, hstaging, List.any_append, List.any_append, hany.1.1]
    exact ⟨by decide, by decide⟩
  have hready : Ready ⟨t', root⟩ := by
    refine ⟨⟨⟨hrefusal, hshort.1⟩, hway⟩, ⟨⟨hrefusal', hshort.2⟩, hway'⟩, fun d => (habsent d).1, ?_⟩
    intro d
    rw [(habsent d).2]
    exact nofun
  refine ⟨hready, ?_⟩
  intro d
  rw [hready.find, (habsent d).2, Option.map_none]

end BlobDirectory

end DedupArchive
