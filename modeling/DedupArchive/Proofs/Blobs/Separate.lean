/-
  DedupArchive/Proofs/Blobs/Separate.lean
  =======================================
  **Blob stores that keep their blobs apart.**

  Calls may fail, for any reason and at any time.  What is asked of a separate
  blob store is only that a call touches no blob but the one it names: a put adds
  the bytes it is given or nothing, an erasure takes away or leaves, and two
  erasures of different blobs do not see each other.  So a directory is one in
  whatever state its tree is, and so is a store some of whose calls fail.

  To erase many blobs is to erase one after the other, up to the first failure.
  Some of them may be gone already: if all can be erased, then it makes no
  difference which were erased before.
-/
import DedupArchive.Proofs.Blobs.Listed

namespace DedupArchive

/-- A blob store whose calls touch no other digest than their own, whether or not they
    fail.  `content` is what is kept, also where it cannot be read. -/
class SeparateBlobs (σ : Type) [BlobStore σ] where
  content : σ → Digest → Option Bytes
  content_of_get : ∀ {blobs : σ} {d : Digest} {data : Bytes},
    BlobStore.get blobs d = .ok data → content blobs d = some data
  content_put : ∀ (blobs : σ) (d : Digest) (data : Bytes) (e : Digest),
    content (BlobStore.put blobs d data).2 e = content blobs e ∨
      e = d ∧ content blobs e = none ∧ content (BlobStore.put blobs d data).2 e = some data
  content_erase : ∀ (blobs : σ) (d e : Digest),
    content (BlobStore.erase blobs d).2 e = content blobs e ∨
      e = d ∧ content (BlobStore.erase blobs d).2 e = none
  content_erase_self : ∀ {blobs : σ} {d : Digest}, (BlobStore.erase blobs d).1 = .ok () →
    content (BlobStore.erase blobs d).2 d = none
  get_erase : ∀ (blobs : σ) {d e : Digest}, d ≠ e →
    BlobStore.get (BlobStore.erase blobs d).2 e = BlobStore.get blobs e
  erase_erase_self : ∀ {blobs : σ} {d : Digest}, (BlobStore.erase blobs d).1 = .ok () →
    BlobStore.erase (BlobStore.erase blobs d).2 d = (.ok (), (BlobStore.erase blobs d).2)
  erase_erase : ∀ (blobs : σ) {d e : Digest}, d ≠ e →
    BlobStore.erase (BlobStore.erase blobs d).2 e =
      ((BlobStore.erase blobs e).1, (BlobStore.erase (BlobStore.erase blobs e).2 d).2)

/-! ### Keys that leave a map -/

section Keys

variable {α β : Type} {cmp : α → α → Ordering} [Std.TransCmp cmp] [Std.LawfulEqCmp cmp]
  {m : Std.ExtTreeMap α β cmp} {k : α}

theorem erase_of_absent (h : m[k]? = none) : m.erase k = m := by
  apply Std.ExtTreeMap.ext_getElem?
  intro a
  rw [Std.ExtTreeMap.getElem?_erase]
  split
  · rename_i heq
    cases Std.LawfulEqCmp.eq_of_compare heq
    exact h.symm
  · rfl

theorem erase_erase_of_same : (m.erase k).erase k = m.erase k :=
  erase_of_absent Std.ExtTreeMap.getElem?_erase_self

theorem erase_comm (m : Std.ExtTreeMap α β cmp) (k l : α) :
    (m.erase k).erase l = (m.erase l).erase k := by
  apply Std.ExtTreeMap.ext_getElem?
  intro a
  simp only [Std.ExtTreeMap.getElem?_erase]
  split <;> split <;> rfl

end Keys

/-! ### In memory -/

namespace MemoryBlobs

theorem content_put (m : MemoryBlobs) (d : Digest) (data : Bytes) (e : Digest) :
    BlobStore.find (BlobStore.put m d data).2 e = BlobStore.find m e ∨
      e = d ∧ BlobStore.find m e = none ∧
        BlobStore.find (BlobStore.put m d data).2 e = some data := by
  obtain ⟨new, after, hput, -, hfind⟩ :=
    FaithfulBlobs.put_spec d data (show FaithfulBlobs.Ready m from trivial)
  rw [hput, hfind]
  by_cases heq : d = e
  · cases hfound : BlobStore.find m e <;> simp [heq]
  · simp [heq]

theorem find_erase (m : MemoryBlobs) (d e : Digest) :
    BlobStore.find (⟨m.blobs.erase d⟩ : MemoryBlobs) e =
      if d = e then none else BlobStore.find m e := by
  simp [find_eq, Std.ExtTreeMap.getElem?_erase]

instance : SeparateBlobs MemoryBlobs where
  content := BlobStore.find
  content_of_get := BlobStore.find_eq_some_iff.mpr
  content_put := content_put
  content_erase m d e := by
    show BlobStore.find (⟨m.blobs.erase d⟩ : MemoryBlobs) e = _ ∨ e = d ∧
      BlobStore.find (⟨m.blobs.erase d⟩ : MemoryBlobs) e = none
    by_cases heq : d = e
    · simp [find_erase, heq]
    · simp [find_erase, heq]
  content_erase_self {m d} _ := by
    show BlobStore.find (⟨m.blobs.erase d⟩ : MemoryBlobs) d = none
    simp [find_erase]
  get_erase m d e hne := by
    show get ⟨m.blobs.erase d⟩ e = get m e
    simp [get, get?, Std.ExtTreeMap.getElem?_erase, hne]
  erase_erase_self {m d} _ := by
    show ((.ok (), ⟨(m.blobs.erase d).erase d⟩) : Except BlobError Unit × MemoryBlobs) =
      (.ok (), ⟨m.blobs.erase d⟩)
    rw [erase_erase_of_same]
  erase_erase m d e _ := by
    show ((.ok (), ⟨(m.blobs.erase d).erase e⟩) : Except BlobError Unit × MemoryBlobs) =
      (.ok (), ⟨(m.blobs.erase e).erase d⟩)
    rw [erase_comm]

end MemoryBlobs

/-! ### In a directory -/

/-- What stands in a directory under a name is reached by directories only. -/
theorem FileTree.way_of_walk_name {t : FileTree} {place : Path} {names : List String} {name : String}
    {found : Path × Entry} (h : t.walk place (names ++ [name]) = .ok found) :
    t.Way place names ∧ (names ++ [name]).any Path.isTooLong = false := by
  induction names generalizing place with
  | nil =>
    rw [List.nil_append, walk] at h
    split at h
    · cases h
    · rename_i hentry
      split at h
      · cases h
      · rename_i hshort
        exact ⟨hentry, by simpa using hshort⟩
    · cases h
  | cons first rest ih =>
    rw [List.cons_append, walk] at h
    split at h
    · cases h
    · rename_i hentry
      split at h
      · cases h
      · rename_i hshort
        obtain ⟨hway, hrest⟩ := ih h
        refine ⟨⟨hentry, hway⟩, ?_⟩
        rw [List.cons_append, List.any_cons, hrest]
        simpa using hshort
    · cases h

namespace BlobDirectory

/-- All paths are open if one of them is, as their last names are of one length. -/
theorem open_of_taken {s : BlobDirectory} {d : Digest} (hway : s.tree.Way [] (objects s.root))
    (htaken : Path.Taken (objectPath s.root d)) : s.Open := by
  rw [objectPath_eq] at htaken
  refine ⟨⟨htaken.of_append, hway⟩, ?_⟩
  intro e
  rw [objectPath_eq]
  apply htaken.exchange
  · simp
  · simp
  · simp [Path.IsAdmitted, Digest.nul_notMem_toHex, Digest.isTooLong_toHex]
  · show e.toHex.utf8ByteSize ≤ d.toHex.utf8ByteSize
    simp [Digest.utf8ByteSize_toHex]

theorem open_of_locate {s : BlobDirectory} {d : Digest} {found : Path × Entry}
    (h : s.tree.locate (objectPath s.root d) = .ok found) : s.Open := by
  rw [FileTree.locate] at h
  split at h
  · cases h
  · rename_i hrefusal
    rw [objectPath_eq] at h hrefusal
    obtain ⟨hway, hshort⟩ := FileTree.way_of_walk_name h
    apply open_of_taken hway
    rw [objectPath_eq]
    exact ⟨hrefusal, hshort⟩

def without (s : BlobDirectory) (d : Digest) : BlobDirectory :=
  { s with tree := ⟨s.tree.entries.erase (s.place d)⟩ }

def withFile (s : BlobDirectory) (d : Digest) (data : Bytes) : BlobDirectory :=
  { s with tree := s.tree.put (s.place d) (.file data) }

section Places

variable (s : BlobDirectory) (d e : Digest)

theorem entryOf_without : (s.without d).entryOf e = if d = e then none else s.entryOf e := by
  have hentry : (s.without d).entryOf e = if s.place d = s.place e then none else s.entryOf e :=
    FileTree.entry_erase (s.place_ne_nil d)
  rw [hentry]
  exact if_congr ⟨place_inj, fun heq => heq ▸ rfl⟩ rfl rfl

theorem entryOf_withFile (data : Bytes) :
    (s.withFile d data).entryOf e = if d = e then some (.file data) else s.entryOf e := by
  have hentry : (s.withFile d data).entryOf e =
      if s.place d = s.place e then some (.file data) else s.entryOf e :=
    FileTree.entry_put (s.place_ne_nil d)
  rw [hentry]
  exact if_congr ⟨place_inj, fun heq => heq ▸ rfl⟩ rfl rfl

theorem without_comm : (s.without d).without e = (s.without e).without d := by
  unfold without place
  rw [erase_comm]

theorem without_without : (s.without d).without d = s.without d := by
  unfold without place
  rw [erase_erase_of_same]

end Places

section Open

variable {s s' : BlobDirectory} (h : s.Open) (d : Digest)

include h

theorem Open.find : BlobStore.find s d =
    match s.entryOf d with
    | none | some .directory => none
    | some (.file data) => some data
    | some (.catalog _) => some [] := by
  show (s.get d).toOption = _
  rw [h.get]
  rcases s.entryOf d with _ | _ | _ | _ <;> rfl

theorem Open.erase : s.erase d =
    if s.entryOf d = some .directory then (.error (.io .isADirectory), s)
    else (.ok (), s.without d) := by
  rw [DedupArchive.BlobDirectory.erase, FileTree.removeFile, h.locate]
  cases hentry : s.entryOf d with
  | none =>
    have habsent : s.tree.entries[s.place d]? = none := by
      rw [← FileTree.entry_eq (s.place_ne_nil d)]
      exact hentry
    simp [without, erase_of_absent habsent]
    rfl
  | some e => cases e <;> rfl

theorem Open.keep (hroot : s'.root = s.root) (hkeeps : s.tree.KeepsDirectories s'.tree) : s'.Open := by
  obtain ⟨hleads, htaken⟩ := h
  rw [← hroot] at hleads htaken
  exact ⟨hleads.keep hkeeps, htaken⟩

theorem Open.without (hfile : s.entryOf d ≠ some .directory) : (s.without d).Open :=
  h.keep rfl (FileTree.keepsDirectories_of_change hfile fun _ => FileTree.entry_erase (s.place_ne_nil d))

theorem Open.get_without (hfile : s.entryOf d ≠ some .directory) {e : Digest} (hne : d ≠ e) :
    (s.without d).get e = s.get e := by
  rw [(h.without d hfile).get, h.get, entryOf_without, if_neg hne]

theorem Open.find_without_self (hfile : s.entryOf d ≠ some .directory) :
    BlobStore.find (s.without d) d = none := by
  rw [(h.without d hfile).find, entryOf_without, if_pos rfl]

theorem Open.withFile (data : Bytes) (hfile : s.entryOf d ≠ some .directory) :
    (s.withFile d data).Open :=
  h.keep rfl (FileTree.keepsDirectories_of_change hfile fun _ => FileTree.entry_put (s.place_ne_nil d))

end Open

/-! Where the paths cannot be followed, nothing is found and nothing is done. -/

section Closed

variable {s : BlobDirectory} (h : ¬ s.Open) (d : Digest)

include h

theorem exists_locate_error : ∃ e, s.tree.locate (objectPath s.root d) = .error e := by
  cases hlocate : s.tree.locate (objectPath s.root d) with
  | error e => exact ⟨e, rfl⟩
  | ok found => exact absurd (open_of_locate hlocate) h

theorem find_of_closed : BlobStore.find s d = none := by
  by_contra hfound
  obtain ⟨found, hlocate⟩ := exists_locate_of_find hfound
  exact h (open_of_locate hlocate)

theorem erase_of_closed : (s.erase d).2 = s := by
  obtain ⟨e, hlocate⟩ := exists_locate_error h d
  simp only [erase, FileTree.removeFile, hlocate]

end Closed

theorem put_cases (s : BlobDirectory) (d : Digest) (data : Bytes) : (s.put d data).2 = s ∨
    s.Open ∧ s.entryOf d = none ∧ (s.put d data).2 = s.withFile d data := by
  rw [put]
  split
  · exact Or.inl rfl
  · exact Or.inl rfl
  · rename_i habsent
    split
    · exact Or.inl rfl
    · split
      · exact Or.inl rfl
      · rename_i tree hwrite
        right
        rw [objectPath_eq] at hwrite
        obtain ⟨htaken, hway, -, rfl⟩ := FileTree.eq_of_putFile (Digest.isStep_toHex d) hwrite
        rw [← objectPath_eq] at htaken
        have hopen := open_of_taken hway htaken
        rw [hopen.contains, Except.ok.injEq, Option.isSome_eq_false_iff, Option.isNone_iff_eq_none] at habsent
        exact ⟨hopen, habsent, rfl⟩

theorem erase_cases (s : BlobDirectory) (d : Digest) :
    (s.erase d).2 = s ∧ ((s.erase d).1 = .ok () → BlobStore.find s d = none) ∨
      s.Open ∧ s.entryOf d ≠ some .directory ∧ s.erase d = (.ok (), s.without d) := by
  by_cases hopen : s.Open
  · rw [hopen.erase]
    split
    · exact Or.inl ⟨rfl, nofun⟩
    · rename_i hfile
      exact Or.inr ⟨hopen, hfile, rfl⟩
  · exact Or.inl ⟨erase_of_closed hopen d, fun _ => find_of_closed hopen d⟩

instance : SeparateBlobs BlobDirectory where
  content := BlobStore.find
  content_of_get := BlobStore.find_eq_some_iff.mpr
  content_put s d data e := by
    show BlobStore.find (s.put d data).2 e = _ ∨ e = d ∧ _ ∧ BlobStore.find (s.put d data).2 e = _
    rcases put_cases s d data with hsame | ⟨hopen, habsent, hput⟩
    · rw [hsame]
      exact Or.inl rfl
    · have hopen' := hopen.withFile d data (by simp [habsent])
      rw [hput, hopen'.find, hopen.find, entryOf_withFile]
      by_cases heq : d = e
      · subst heq
        simp [habsent]
      · simp [heq]
  content_erase s d e := by
    show BlobStore.find (s.erase d).2 e = _ ∨ e = d ∧ BlobStore.find (s.erase d).2 e = none
    rcases erase_cases s d with ⟨hsame, -⟩ | ⟨hopen, hfile, herase⟩
    · rw [hsame]
      exact Or.inl rfl
    · rw [herase]
      by_cases heq : d = e
      · subst heq
        exact Or.inr ⟨rfl, hopen.find_without_self d hfile⟩
      · left
        simp only [BlobStore.find, BlobStore.get, hopen.get_without d hfile heq]
  content_erase_self {s d} hok := by
    change (s.erase d).1 = .ok () at hok
    show BlobStore.find (s.erase d).2 d = none
    rcases erase_cases s d with ⟨hsame, habsent⟩ | ⟨hopen, hfile, herase⟩
    · rw [hsame]
      exact habsent hok
    · rw [herase]
      exact hopen.find_without_self d hfile
  get_erase s d e hne := by
    show (s.erase d).2.get e = s.get e
    rcases erase_cases s d with ⟨hsame, -⟩ | ⟨hopen, hfile, herase⟩
    · rw [hsame]
    · rw [herase]
      exact hopen.get_without d hfile hne
  erase_erase_self {s d} hok := by
    change (s.erase d).1 = .ok () at hok
    show (s.erase d).2.erase d = (.ok (), (s.erase d).2)
    rcases erase_cases s d with ⟨hsame, -⟩ | ⟨hopen, hfile, herase⟩
    · rw [hsame]
      exact Prod.ext hok hsame
    · rw [herase, (hopen.without d hfile).erase, entryOf_without, without_without]
      simp
  erase_erase s d e hne := by
    show (s.erase d).2.erase e = ((s.erase e).1, ((s.erase e).2.erase d).2)
    by_cases hopen : s.Open
    · have hentry : (s.without d).entryOf e = s.entryOf e := by rw [entryOf_without, if_neg hne]
      have hentry' : (s.without e).entryOf d = s.entryOf d := by rw [entryOf_without, if_neg hne.symm]
      by_cases hd : s.entryOf d = some .directory
      · by_cases he : s.entryOf e = some .directory
        · simp [hopen.erase, hd, he]
        · simp [hopen.erase, (hopen.without e he).erase, hentry', hd, he]
      · by_cases he : s.entryOf e = some .directory
        · simp [hopen.erase, (hopen.without d hd).erase, hentry, hd, he]
        · simp [hopen.erase, (hopen.without d hd).erase, (hopen.without e he).erase, hentry, hentry',
            hd, he, without_comm s d e]
    · simp only [erase_of_closed hopen]
      exact Prod.ext rfl (erase_of_closed hopen e)

end BlobDirectory

/-! ### Where some calls fail -/

namespace FaultyBlobs

variable {σ : Type} [BlobStore σ] (s : FaultyBlobs σ) (d : Digest)

/-- A call is refused by the faults, or passed on. -/
theorem erase_eq : BlobStore.erase s d =
    match s.fault? .erase (some d) with
    | some e => (.error (.io e), s)
    | none => ((BlobStore.erase s.blobs d).1, { s with blobs := (BlobStore.erase s.blobs d).2 }) := rfl

theorem get_eq : BlobStore.get s d =
    match s.fault? .get (some d) with
    | some e => .error (.io e)
    | none => BlobStore.get s.blobs d := rfl

theorem put_eq (data : Bytes) : BlobStore.put s d data =
    match s.fault? .put (some d) with
    | some e => (.error (.io e), s)
    | none => ((BlobStore.put s.blobs d data).1, { s with blobs := (BlobStore.put s.blobs d data).2 }) := rfl

omit [BlobStore σ] in
theorem fault?_of_faults (blobs : σ) (call : BlobCall) (digest : Option Digest) :
    fault? { s with blobs } call digest = s.fault? call digest := rfl

instance [SeparateBlobs σ] : SeparateBlobs (FaultyBlobs σ) where
  content s := SeparateBlobs.content s.blobs
  content_of_get {s d data} hget := by
    rw [get_eq] at hget
    split at hget
    · cases hget
    · exact SeparateBlobs.content_of_get hget
  content_put s d data e := by
    rw [put_eq]
    split
    · exact Or.inl rfl
    · exact SeparateBlobs.content_put s.blobs d data e
  content_erase s d e := by
    rw [erase_eq]
    split
    · exact Or.inl rfl
    · exact SeparateBlobs.content_erase s.blobs d e
  content_erase_self {s d} hok := by
    rw [erase_eq] at hok ⊢
    split at hok
    · cases hok
    · exact SeparateBlobs.content_erase_self hok
  get_erase s d e hne := by
    rw [erase_eq]
    split
    · rfl
    · rw [get_eq, get_eq, fault?_of_faults, SeparateBlobs.get_erase s.blobs hne]
  erase_erase_self {s d} hok := by
    cases hfault : s.fault? .erase (some d) with
    | some e =>
      rw [erase_eq, hfault] at hok
      cases hok
    | none =>
      simp only [erase_eq, fault?_of_faults, hfault] at hok ⊢
      rw [SeparateBlobs.erase_erase_self hok]
  erase_erase s d e hne := by
    cases hfault : s.fault? .erase (some d) <;> cases hfault' : s.fault? .erase (some e) <;>
      simp only [erase_eq, fault?_of_faults, hfault, hfault']
    rw [SeparateBlobs.erase_erase s.blobs hne]

end FaultyBlobs

/-! ### Erasing many blobs -/

namespace BlobStore

variable {σ : Type} [BlobStore σ]

def eraseAll (blobs : σ) : List Digest → Except BlobError Unit × σ
  | [] => (.ok (), blobs)
  | d :: rest =>
    match erase blobs d with
    | (.error e, blobs) => (.error e, blobs)
    | (.ok (), blobs) => eraseAll blobs rest

variable {blobs : σ} {d e : Digest} {digests removed : List Digest}

theorem eraseAll_cons_of_error {cause : BlobError} (h : (erase blobs d).1 = .error cause) :
    eraseAll blobs (d :: digests) = (.error cause, (erase blobs d).2) := by
  rw [eraseAll]
  rcases hout : erase blobs d with ⟨_ | _, after⟩ <;> simp_all

theorem eraseAll_cons_of_ok (h : (erase blobs d).1 = .ok ()) :
    eraseAll blobs (d :: digests) = eraseAll (erase blobs d).2 digests := by
  rw [eraseAll]
  rcases hout : erase blobs d with ⟨_ | _, after⟩ <;> simp_all

/-- If all could be erased, the first could be, and after it the rest. -/
theorem ok_of_eraseAll_cons (h : (eraseAll blobs (d :: digests)).1 = .ok ()) :
    (erase blobs d).1 = .ok () ∧ (eraseAll (erase blobs d).2 digests).1 = .ok () := by
  cases hfirst : (erase blobs d).1 with
  | error cause =>
    rw [eraseAll_cons_of_error hfirst] at h
    cases h
  | ok _ =>
    rw [eraseAll_cons_of_ok hfirst] at h
    exact ⟨rfl, h⟩

variable [SeparateBlobs σ]

open SeparateBlobs (content)

theorem content_eraseAll (blobs : σ) (digests : List Digest) (e : Digest) :
    content (eraseAll blobs digests).2 e = content blobs e ∨
      e ∈ digests ∧ content (eraseAll blobs digests).2 e = none := by
  induction digests generalizing blobs with
  | nil => exact Or.inl rfl
  | cons d rest ih =>
    cases hfirst : (erase blobs d).1 with
    | error cause =>
      rw [eraseAll_cons_of_error hfirst]
      rcases SeparateBlobs.content_erase blobs d e with hsame | ⟨rfl, hnone⟩
      · exact Or.inl hsame
      · exact Or.inr ⟨List.mem_cons_self, hnone⟩
    | ok _ =>
      rw [eraseAll_cons_of_ok hfirst]
      rcases ih (erase blobs d).2 with hsame | ⟨hmem, hnone⟩
      · rw [hsame]
        rcases SeparateBlobs.content_erase blobs d e with hsame | ⟨rfl, hnone⟩
        · exact Or.inl hsame
        · exact Or.inr ⟨List.mem_cons_self, hnone⟩
      · exact Or.inr ⟨List.mem_cons_of_mem d hmem, hnone⟩

theorem content_eraseAll_of_mem (h : (eraseAll blobs digests).1 = .ok ()) (he : e ∈ digests) :
    content (eraseAll blobs digests).2 e = none := by
  induction digests generalizing blobs with
  | nil => cases he
  | cons d rest ih =>
    obtain ⟨hfirst, hrest⟩ := ok_of_eraseAll_cons h
    rw [eraseAll_cons_of_ok hfirst]
    rcases List.mem_cons.mp he with rfl | he
    · -- what is gone does not come back while the rest are erased
      rcases content_eraseAll (erase blobs e).2 rest e with hsame | ⟨-, hnone⟩
      · rw [hsame]
        exact SeparateBlobs.content_erase_self hfirst
      · exact hnone
    · exact ih hrest he

theorem get_eraseAll (blobs : σ) (h : e ∉ digests) :
    get (eraseAll blobs digests).2 e = get blobs e := by
  induction digests generalizing blobs with
  | nil => rfl
  | cons d rest ih =>
    rw [List.mem_cons, not_or] at h
    have hother := SeparateBlobs.get_erase blobs (Ne.symm h.1)
    cases hfirst : (erase blobs d).1 with
    | error cause =>
      rw [eraseAll_cons_of_error hfirst]
      exact hother
    | ok _ =>
      rw [eraseAll_cons_of_ok hfirst, ih _ h.2]
      exact hother

/-- One of the blobs may have been erased before. -/
theorem eraseAll_erase (h : (eraseAll blobs digests).1 = .ok ()) (hd : d ∈ digests) :
    (erase blobs d).1 = .ok () ∧ eraseAll (erase blobs d).2 digests = eraseAll blobs digests := by
  induction digests generalizing blobs with
  | nil => cases hd
  | cons c rest ih =>
    obtain ⟨hfirst, hrest⟩ := ok_of_eraseAll_cons h
    by_cases heq : d = c
    · subst heq
      refine ⟨hfirst, ?_⟩
      have hagain := SeparateBlobs.erase_erase_self hfirst
      rw [eraseAll_cons_of_ok (by rw [hagain]), hagain, eraseAll_cons_of_ok hfirst]
    · have hd : d ∈ rest := List.mem_of_ne_of_mem heq hd
      obtain ⟨hok, habsorb⟩ := ih hrest hd
      -- the two erasures do not see each other
      have hswap := SeparateBlobs.erase_erase blobs (Ne.symm heq)
      have hswap' := SeparateBlobs.erase_erase blobs heq
      rw [hswap] at hok
      refine ⟨hok, ?_⟩
      rw [eraseAll_cons_of_ok (by rw [hswap']; exact hfirst), hswap', habsorb,
        eraseAll_cons_of_ok hfirst]

/-- **Erasing what is partly gone.**  If all of the blobs can be erased, any of
    them can be erased before, and the outcome is the same. -/
theorem eraseAll_eraseAll (h : (eraseAll blobs digests).1 = .ok ())
    (hsub : ∀ d ∈ removed, d ∈ digests) : (eraseAll blobs removed).1 = .ok () ∧
      eraseAll (eraseAll blobs removed).2 digests = eraseAll blobs digests := by
  induction removed generalizing blobs with
  | nil => exact ⟨rfl, rfl⟩
  | cons d rest ih =>
    obtain ⟨hfirst, habsorb⟩ := eraseAll_erase h (hsub d List.mem_cons_self)
    have hagain : (eraseAll (erase blobs d).2 digests).1 = .ok () := by rw [habsorb, h]
    obtain ⟨hrest, habsorb'⟩ := ih hagain fun e he => hsub e (List.mem_cons_of_mem d he)
    rw [eraseAll_cons_of_ok hfirst]
    exact ⟨hrest, habsorb'.trans habsorb⟩

end BlobStore

theorem MemoryBlobs.eraseAll_ok (m : MemoryBlobs) (digests : List Digest) :
    (BlobStore.eraseAll m digests).1 = .ok () := by
  induction digests generalizing m with
  | nil => rfl
  | cons d rest ih => exact ih _

end DedupArchive
