/-
  DedupArchive/Proofs/Store/Parts.lean
  ====================================
  **The parts of a store directory.**

  A store directory holds blobs, a catalog and a descriptor.  Each of them is
  written at places of its own and leaves the rest of the tree alone: blobs are
  put and erased below the directory of the objects, a catalog is opened at one
  place, and the files of a descriptor stand where they were written until
  something else is written there.
-/
import DedupArchive.Proofs.Blobs.Directory
import DedupArchive.Proofs.Params.Written
import DedupArchive.Store.Home

namespace DedupArchive

open DedupArchive.Path (IsStep)

/-! ### Texts in files -/

theorem Bytes.toText?_ofText (text : String) : Bytes.toText? (Bytes.ofText text) = some text := by
  rw [toText?, ofText, String.fromUTF8?, Option.dite_none_right_eq_some]
  exact ⟨text.isValidUTF8, rfl⟩

/-! ### Changes of blobs -/

namespace BlobDirectory

def places (root : Path) : Set Path := Set.range fun d : Digest => (objects root).plain ++ [d.toHex]

variable (s : BlobDirectory) (d : Digest)

theorem altersOnly_putBlob (data : Bytes) :
    (s.put d data).2.root = s.root ∧ s.tree.AltersOnly (s.put d data).2.tree (places s.root) := by
  rw [put]
  split
  · exact ⟨rfl, .refl _⟩
  · exact ⟨rfl, .refl _⟩
  · split
    · exact ⟨rfl, .refl _⟩
    · split
      · exact ⟨rfl, .refl _⟩
      · rename_i tree hwrite
        rw [objectPath_eq] at hwrite
        obtain ⟨-, -, hfree, rfl⟩ := FileTree.eq_of_putFile (Digest.isStep_toHex d) hwrite
        refine ⟨rfl, (FileTree.altersOnly_put (s.place_ne_nil d) hfree).mono ?_⟩
        rintro _ rfl
        exact ⟨d, rfl⟩

theorem altersOnly_eraseBlob :
    (s.erase d).2.root = s.root ∧ s.tree.AltersOnly (s.erase d).2.tree (places s.root) := by
  rw [erase]
  split
  · rename_i tree hremove
    rw [FileTree.removeFile] at hremove
    split at hremove
    · cases hremove
    · cases hremove
    · rename_i place e hfile hlocate
      cases hremove
      obtain ⟨hplace, hentry⟩ := FileTree.entry_of_locate hlocate
      rw [objectPath_eq, (Digest.isStep_toHex d).plain_append] at hplace
      subst hplace
      refine ⟨rfl, (FileTree.altersOnly_erase (s.place_ne_nil d) ?_).mono ?_⟩
      · intro hdirectory
        rw [← place, hdirectory] at hentry
        cases hentry
        exact hfile rfl
      · rintro _ rfl
        exact ⟨d, rfl⟩
  · exact ⟨rfl, .refl _⟩

end BlobDirectory

/-! ### The file of the catalog -/

namespace CatalogFile

variable {t t' : FileTree} {p place : Path} {names : List String}

theorem isInReach_of_find
    (hsize : ∀ more, more <+: names → more ≠ [] →
      (Path.text (more.foldl Path.step place)).utf8ByteSize ≤ longestPath)
    (hfind : ∀ more, more <+: names → more ≠ [] → ∃ e, t.find (more.foldl Path.step place) = .ok e) :
    isInReach t place names = true := by
  induction names generalizing place with
  | nil => rfl
  | cons name rest ih =>
    have hfirst : [name] <+: name :: rest := List.prefix_append [name] rest
    obtain ⟨e, he⟩ := hfind [name] hfirst (List.cons_ne_nil name [])
    have hrest : isInReach t (Path.step place name) rest = true := by
      apply ih
      · intro more hmore _
        exact hsize (name :: more) (List.cons_prefix_cons.mpr ⟨rfl, hmore⟩) (List.cons_ne_nil name more)
      · intro more hmore _
        exact hfind (name :: more) (List.cons_prefix_cons.mpr ⟨rfl, hmore⟩) (List.cons_ne_nil name more)
    rw [List.foldl_cons, List.foldl_nil] at he
    rw [isInReach]
    simp only [he, hrest, Bool.and_true, decide_eq_true_eq]
    exact hsize [name] hfirst (List.cons_ne_nil name [])

section Held

variable {name : String} (hname : IsStep name)

include hname

theorem spec_of_hold {e : Entry} (h : hold t (p ++ [name]) = (.ok e, t')) :
    isInReach t [] (p ++ [name]) = true ∧ e ≠ .directory ∧
      t'.entry? (p.plain ++ [name]) = some e ∧ t.AltersOnly t' {p.plain ++ [name]} := by
  have htop : p.plain ++ [name] ≠ [] := List.append_ne_nil_of_right_ne_nil _ (List.cons_ne_nil _ _)
  have hstraight : p.plain.plain = p.plain := (Path.isStraight_plain p).plain_eq
  rw [hold, hname.plain_append] at h
  split at h
  · cases h
  · rename_i hreach
    rw [Bool.not_eq_true', Bool.not_eq_false] at hreach
    refine ⟨hreach, ?_⟩
    split at h
    · cases h
    · rename_i found hfile hfind
      cases h
      have hentry := FileTree.entry_of_find hfind
      rw [hname.plain_append, hstraight] at hentry
      exact ⟨hfile, hentry, .refl _⟩
    · split at h
      · rename_i hput
        cases h
        obtain ⟨-, -, hfree, rfl⟩ := FileTree.eq_of_putFile hname hput
        rw [hstraight] at hfree ⊢
        refine ⟨nofun, ?_, FileTree.altersOnly_put htop hfree⟩
        rw [FileTree.entry_put htop, if_pos rfl]
      · cases h

end Held

end CatalogFile

/-! ### The descriptor -/

namespace Descriptor

theorem folder_eq (root : Path) : folder root = root.stem ++ ["format"] := root.join_eq "format"

theorem join_folder (root : Path) (name : String) : (folder root).join name = folder root ++ [name] := by
  rw [folder_eq]
  exact Path.join_append_singleton (by decide) name

def places (root : Path) (parts : List (String × String)) : Set Path :=
  { q | ∃ part ∈ parts, q = (folder root).plain ++ [part.1] }

def Stands (t : FileTree) (root : Path) (parts : List (String × String)) : Prop :=
  ∀ part ∈ parts, Path.Taken (folder root ++ [part.1]) ∧
    t.entry? ((folder root).plain ++ [part.1]) = some (.file (Bytes.ofText part.2))

variable {t t' : FileTree} {root : Path}

theorem spec_of_writeFiles {parts : List (String × String)} (hstep : ∀ part ∈ parts, IsStep part.1)
    (hdistinct : (parts.map (·.1)).Nodup) (h : writeFiles t (folder root) parts = (.ok (), t')) :
    Stands t' root parts ∧ t.AltersOnly t' (places root parts) := by
  induction parts generalizing t with
  | nil =>
    cases h
    exact ⟨nofun, .refl _⟩
  | cons part rest ih =>
    obtain ⟨name, text⟩ := part
    obtain ⟨hname, hrest⟩ := List.forall_mem_cons.mp hstep
    obtain ⟨hnew, hdistinct⟩ := List.nodup_cons.mp hdistinct
    rw [writeFiles, join_folder, FileTree.writeFile] at h
    cases hput : t.putFile (folder root ++ [name]) (.file (Bytes.ofText text)) with
    | error e =>
      rw [hput] at h
      cases h
    | ok t₁ =>
      rw [hput] at h
      obtain ⟨htaken, -, hfree, rfl⟩ := FileTree.eq_of_putFile hname hput
      obtain ⟨hstands, halters⟩ := ih hrest hdistinct h
      have htop : (folder root).plain ++ [name] ≠ [] :=
        List.append_ne_nil_of_right_ne_nil _ (List.cons_ne_nil _ _)
      -- a name that is written only once keeps what was written
      have hkept : (folder root).plain ++ [name] ∉ places root rest := by
        rintro ⟨other, hother, heq⟩
        have hsame : name = other.1 := List.head_eq_of_cons_eq (List.append_cancel_left heq)
        exact hnew (List.mem_map.mpr ⟨other, hother, hsame.symm⟩)
      constructor
      · intro other hother
        rcases List.mem_cons.mp hother with rfl | hother
        · refine ⟨htaken, ?_⟩
          rw [halters.same _ hkept, FileTree.entry_put htop, if_pos rfl]
        · exact hstands other hother
      · apply FileTree.AltersOnly.trans ((FileTree.altersOnly_put htop hfree).mono _)
        · refine halters.mono ?_
          rintro q ⟨other, hother, rfl⟩
          exact ⟨other, List.mem_cons_of_mem _ hother, rfl⟩
        · rintro _ rfl
          exact ⟨_, List.mem_cons_self, rfl⟩

theorem isStep_of_mem_files {p : Params} : ∀ part ∈ files p, IsStep part.1 := by
  simp only [files, List.forall_mem_cons]
  exact ⟨by decide, by decide, by decide, nofun⟩

/-- The longest of the three paths is taken, and so are all that have no more bytes. -/
theorem Stands.taken_chunking {p : Params} (h : Stands t root (files p)) :
    Path.Taken (root.stem ++ ["format", "chunking"]) := by
  have htaken := (h ("chunking", p.toIndentedJson) (by simp [files])).1
  rw [folder_eq, List.append_assoc] at htaken
  exact htaken

theorem Stands.leads_stem {p : Params} (h : Stands t root (files p)) (hway : t.Way [] (folder root)) :
    t.Leads root.stem := by
  rw [folder_eq, FileTree.way_append] at hway
  exact ⟨h.taken_chunking.of_append, hway.1⟩

theorem spec_of_write {p : Params} (h : write t root p = (.ok (), t')) :
    t'.Way [] (folder root) ∧ Stands t' root (files p) ∧ t.KeepsDirectories t' ∧
      ∀ q ∉ places root (files p), ∀ e, t.entry? q = some e → t'.entry? q = some e := by
  rw [write] at h
  rcases hmake : t.makeDirectories (folder root) with ⟨_ | _, t₁⟩
  · rw [hmake] at h
    cases h
  · rw [hmake] at h
    have hentries (q : Path) (e : Entry) (hq : t.entry? q = some e) : t₁.entry? q = some e :=
      FileTree.entry_of_makeDirectories hmake hq
    have hdistinct : ((files p).map (·.1)).Nodup := by
      show ["name", "version", "chunking"].Nodup
      decide
    obtain ⟨hstands, halters⟩ := spec_of_writeFiles isStep_of_mem_files hdistinct h
    rw [folder_eq] at hmake ⊢
    obtain ⟨-, hkeeps, hway⟩ := FileTree.way_of_makeDirectories (by decide) hmake
    refine ⟨hway.keep halters.keeps, hstands, hkeeps.trans halters.keeps, ?_⟩
    intro q hq e hentry
    rw [halters.same q hq]
    exact hentries q e hentry

theorem readPart_of_stands {parts : List (String × String)} (h : Stands t root parts)
    (hfolder : t.Leads (folder root)) {name text : String} (hname : IsStep name)
    (hpart : (name, text) ∈ parts) : readPart t root name = .ok text := by
  obtain ⟨htaken, hentry⟩ := h (name, text) hpart
  rw [readPart, FileTree.textAt, FileTree.bytesAt, join_folder, hfolder.find_name htaken hname hentry]
  simp only [Bytes.toText?_ofText]

/-- **The descriptor.**  What was written is read, but for the switch, and then
    refused if it is not valid. -/
theorem read_eq_of_stands {p : Params} (h : Stands t root (files p)) (hfolder : t.Leads (folder root)) :
    read t root = match p.validate with
      | .ok () => .ok { p with hashing := true }
      | .error e => .error (.notAStore root.text (.invalidParams (.invalidParams e))) := by
  have hkind : readPart t root "name" = .ok s!"{storeKind}\n" :=
    readPart_of_stands h hfolder (by decide) (by simp [files])
  have hversion : readPart t root "version" = .ok s!"{storeVersion}\n" :=
    readPart_of_stands h hfolder (by decide) (by simp [files])
  have hchunking : readPart t root "chunking" = .ok p.toIndentedJson :=
    readPart_of_stands h hfolder (by decide) (by simp [files])
  have htrim : Text.trim s!"{storeKind}\n" = storeKind := by decide
  have htrim' : Text.trim s!"{storeVersion}\n" = toString storeVersion := by decide
  have hvalidate : Params.validate { p with hashing := true } = p.validate := rfl
  simp only [read, hkind, hversion, hchunking, bind, Except.bind, htrim, htrim', ne_eq, not_true_eq_false,
    if_false, p.ofJson?_toIndentedJson, hvalidate]
  cases p.validate <;> rfl

end Descriptor

end DedupArchive
