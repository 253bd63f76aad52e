/-
  DedupArchive/Proofs/Blobs/Interchange.lean
  ==========================================
  **A directory of blobs passes for blobs in memory.**

  Nothing that a blob store is asked tells a directory from a map in memory: not
  the answers, not in the order in which the file system lists names, and not if
  the directory is opened anew between two calls.  What else lies in the
  directory is not seen and stays.

  New bytes are written to a file of their own first and moved into place.  In a
  directory that is ready this comes to the same as writing them in place, and no
  file stays where they were staged.
-/
import DedupArchive.Proofs.Blobs.Requests
import DedupArchive.Proofs.Store.Members
import DedupArchive.Proofs.Store.Parts

namespace DedupArchive

open DedupArchive.Path (IsStep IsAdmitted Taken)

namespace BlobDirectory

/-! ### What the answers show -/

theorem digests_ascend_of_digests {s : BlobDirectory} {stored : List Digest} (h : s.digests = .ok stored) :
    stored.Pairwise fun d e => compare d e = .lt := by
  rw [digests] at h
  split at h
  · cases h
  · rename_i names hnames
    cases h
    have htotal (d e : Digest) : ((compare d e).isLE || (compare e d).isLE) = true := by
      have hswap : compare e d = (compare d e).swap := Std.OrientedCmp.eq_swap
      rw [hswap]
      cases compare d e <;> rfl
    apply ascend_of_sorted
    · exact List.pairwise_mergeSort (fun d e f => Std.TransCmp.isLE_trans) htotal _
    · rw [(List.mergeSort_perm _ _).nodup_iff]
      apply (FileTree.nodup_names hnames).filterMap
      intro name name' d hname hname'
      rw [Option.mem_def, Digest.ofHex?_eq_some_iff] at hname hname'
      rw [hname, hname']

instance : TransparentBlobs BlobDirectory where
  put_new {s} d data h := by
    show (s.put d data).1 = _
    rw [put, Ready.contains h, Ready.requireDirectory h, Ready.writeFile h, Ready.find h]
    cases s.entryOf d <;> rfl
  get_eq {s} d h := by
    show s.get d = _
    rw [Ready.get h, Ready.find h]
    rcases s.entryOf d with _ | _ | _ | _ <;> rfl
  contains_eq {s} d h := by
    show s.contains d = _
    rw [contains, Ready.contains h, Ready.find h, Option.isSome_map]
  digests_ascend _ hstored := digests_ascend_of_digests hstored

end BlobDirectory

/-! ### New bytes are staged -/

namespace FileTree

def moveFile (t : FileTree) (source target : Path) : Except IoError FileTree :=
  match t.find source with
  | .error e => .error e
  | .ok .directory => .error .isADirectory
  | .ok e =>
    match t.putFile target e with
    | .error e => .error e
    | .ok t => t.removeFile source

section Moved

variable {t : FileTree} {p q : Path} {name name' : String} {e : Entry}

theorem erase_put_put {place place' : Path} (hplace : place ≠ []) (hfree : t.entry? place = none)
    (hne : place ≠ place') :
    (⟨((t.put place e).put place' e).entries.erase place⟩ : FileTree) = t.put place' e := by
  have hother {r : Path} (hr : place ≠ r) : compare place r ≠ .eq :=
    fun heq => hr (Std.LawfulEqCmp.eq_of_compare heq)
  rw [entry_eq hplace] at hfree
  simp only [FileTree.put, FileTree.mk.injEq]
  apply Std.ExtTreeMap.ext_getElem?
  intro r
  simp only [Std.ExtTreeMap.getElem?_erase, Std.ExtTreeMap.getElem?_insert]
  by_cases hr : place = r
  · subst hr
    rw [if_pos Std.ReflCmp.compare_self, if_neg, hfree]
    exact fun heq => hne (Std.LawfulEqCmp.eq_of_compare heq).symm
  · rw [if_neg (hother hr), if_neg (hother hr)]

/-- A new file that is moved stands at the new place, and nothing stands at the old one. -/
theorem moveFile_put (hp : t.Leads p) (htaken : Taken (p ++ [name])) (hname : IsStep name)
    (hq : t.Leads q) (htaken' : Taken (q ++ [name'])) (hname' : IsStep name')
    (hfree : t.entry? (p.plain ++ [name]) = none)
    (hfree' : t.entry? (q.plain ++ [name']) ≠ some .directory)
    (hne : p.plain ++ [name] ≠ q.plain ++ [name']) (hfile : e ≠ .directory) :
    FileTree.moveFile (t.put (p.plain ++ [name]) e) (p ++ [name]) (q ++ [name']) =
      .ok (t.put (q.plain ++ [name']) e) := by
  have hsome : some e ≠ some Entry.directory := fun heq => hfile (Option.some.inj heq)
  have htop : p.plain ++ [name] ≠ [] := List.append_ne_nil_of_right_ne_nil _ (List.cons_ne_nil _ _)
  have htop' : q.plain ++ [name'] ≠ [] := List.append_ne_nil_of_right_ne_nil _ (List.cons_ne_nil _ _)
  have hentry : FileTree.entry? (t.put (p.plain ++ [name]) e) (p.plain ++ [name]) = some e := by
    rw [entry_put htop, if_pos rfl]
  have hentry' : FileTree.entry? (t.put (p.plain ++ [name]) e) (q.plain ++ [name']) ≠ some .directory := by
    rw [entry_put htop, if_neg hne]
    exact hfree'
  -- neither the new file nor its copy takes a directory from the other path
  have hkeeps : t.KeepsDirectories (t.put (p.plain ++ [name]) e) :=
    keepsDirectories_of_change (by simp [hfree]) fun r => entry_put htop
  have hkeeps' : FileTree.KeepsDirectories (t.put (p.plain ++ [name]) e)
      ((t.put (p.plain ++ [name]) e).put (q.plain ++ [name']) e) :=
    keepsDirectories_of_change hentry' fun r => entry_put htop'
  have hfind := (hp.keep hkeeps).find_name htaken hname hentry
  have hput := (hq.keep hkeeps).putFile_name htaken' hname' e hentry'
  have hstill : FileTree.entry? ((t.put (p.plain ++ [name]) e).put (q.plain ++ [name']) e)
      (p.plain ++ [name]) = some e := by
    rw [entry_put htop', if_neg hne.symm, hentry]
  have hremove := ((hp.keep hkeeps).keep hkeeps').removeFile_name htaken hname hstill hfile
  rw [moveFile, hfind]
  simp only [hput, hremove, erase_put_put htop hfree hne]

end Moved

end FileTree

namespace BlobDirectory

/-- Store a blob unless one with the digest is there, by way of a new file with
    the name given.  Where the file cannot be moved into place it is removed. -/
def putThrough (s : BlobDirectory) (name : String) (d : Digest) (data : Bytes) :
    Except BlobError Bool × BlobDirectory :=
  let target := objectPath s.root d
  let staged := (staging s.root).join name
  match s.tree.contains target with
  | .error e => (.error (.io e), s)
  | .ok true => (.ok false, s)
  | .ok false =>
    match s.tree.contains staged with
    | .error e => (.error (.io e), s)
    | .ok true => (.error (.io .fileExists), s)
    | .ok false =>
      match s.tree.writeFile staged data with
      | .error e => (.error (.io e), s)
      | .ok tree =>
        match tree.moveFile staged target with
        | .ok tree => (.ok true, { s with tree })
        | .error e =>
          match tree.removeFile staged with
          | .ok tree => (.error (.io e), { s with tree })
          | .error _ => (.error (.io e), { s with tree })

/-- Whether a new file can have the name, with no more bytes than a blob's file. -/
def IsSpare (name : String) : Prop := IsStep name ∧ IsAdmitted name ∧ name.utf8ByteSize ≤ 64

instance : DecidablePred IsSpare := fun _ => inferInstanceAs (Decidable (_ ∧ _ ∧ _))

section Staged

variable {s : BlobDirectory} (h : s.Ready) {name : String} (hspare : IsSpare name)

theorem join_staging (root : Path) (name : String) : (staging root).join name = staging root ++ [name] := by
  obtain ⟨base, hbase⟩ := root.exists_join
  rw [staging, hbase, Path.join_append_singleton (by decide)]

include h hspare

theorem taken_staged : Taken (staging s.root ++ [name]) := by
  obtain ⟨base, hobjects, hstaging⟩ := exists_base s.root
  have htaken := h.taken (Digest.of [])
  rw [objectPath_eq, hobjects, List.append_assoc] at htaken
  rw [hstaging, List.append_assoc]
  apply htaken.exchange
  · exact List.cons_ne_nil _ _
  · exact List.cons_ne_nil _ _
  · intro other hother
    simp only [List.cons_append, List.nil_append, List.mem_cons, List.not_mem_nil, or_false] at hother
    rcases hother with rfl | rfl
    · decide
    · exact hspare.2.1
  -- a blob's name is the longest there is, and stands in the directory with the longer name
  · have hsize (first last : String) :
        (Path.text [first, last]).utf8ByteSize = first.utf8ByteSize + 1 + last.utf8ByteSize := by
      show (first ++ "/" ++ last).utf8ByteSize = _
      rw [String.utf8ByteSize_append, String.utf8ByteSize_append]
      rfl
    have hlong := hspare.2.2
    simp only [List.cons_append, List.nil_append, hsize, Digest.utf8ByteSize_toHex]
    have hname : "tmp".utf8ByteSize = 3 := by decide
    have hname' : "objects".utf8ByteSize = 7 := by decide
    omega

/-- **Staging.**  Where nothing is staged, a blob that is moved into place is a
    blob that is written in place. -/
theorem putThrough_eq (d : Digest) (data : Bytes)
    (hfree : s.tree.entry? ((staging s.root).plain ++ [name]) = none) :
    s.putThrough name d data = s.put d data := by
  have htaken := taken_staged h hspare
  have hfile : s.tree.entry? ((staging s.root).plain ++ [name]) ≠ some .directory := by
    rw [hfree]
    exact (Option.some_ne_none _).symm
  have happart : (staging s.root).plain ++ [name] ≠ (objects s.root).plain ++ [d.toHex] := by
    rw [staging, objects, IsStep.plain_join (by decide), IsStep.plain_join (by decide),
      List.append_assoc, List.append_assoc]
    intro heq
    exact absurd (List.head_eq_of_cons_eq (List.append_cancel_left heq)) (by decide)
  have hmove : FileTree.moveFile (s.tree.put ((staging s.root).plain ++ [name]) (.file data))
      (staging s.root ++ [name]) (objectPath s.root d) = .ok (s.tree.put (s.place d) (.file data)) := by
    have htarget := h.taken d
    rw [objectPath_eq] at htarget ⊢
    exact FileTree.moveFile_put h.staging htaken hspare.1 h.objects htarget (Digest.isStep_toHex d)
      hfree (h.isFile d) happart (by simp)
  have hstage : s.tree.writeFile (staging s.root ++ [name]) data =
      .ok (s.tree.put ((staging s.root).plain ++ [name]) (.file data)) :=
    h.staging.putFile_name htaken hspare.1 _ hfile
  have hunused : s.tree.contains (staging s.root ++ [name]) = .ok false := by
    rw [h.staging.contains_name htaken hspare.1, hfree]
    rfl
  rw [putThrough, put, h.contains d]
  cases s.entryOf d with
  | some e => rfl
  | none =>
    simp only [Option.isSome_none, join_staging, hunused, hstage, hmove, h.requireDirectory,
      h.writeFile d data]

end Staged

/-! ### Calls and openings -/

/-- A call, with the name for the file that it stages; or the directory is opened
    anew. -/
inductive Event where
  | call (spare : String) (request : BlobRequest)
  | reopen

def Event.request? : Event → Option BlobRequest
  | .call _ request => some request
  | .reopen => none

def performThrough (s : BlobDirectory) (spare : String) : BlobRequest → BlobAnswer × BlobDirectory
  | .put d data => (.stored (s.putThrough spare d data).1, (s.putThrough spare d data).2)
  | request => BlobStore.perform s request

def follow (s : BlobDirectory) : List Event → Except BlobError (List BlobAnswer) × BlobDirectory
  | [] => (.ok [], s)
  | .call spare request :: rest =>
    let (answer, s) := s.performThrough spare request
    let (answers, s) := s.follow rest
    (answers.map (answer :: ·), s)
  | .reopen :: rest =>
    match prepare s.tree s.root with
    | (.error e, tree) => (.error e, { s with tree })
    | (.ok (), tree) => follow { s with tree } rest

theorem altersOnly_perform (s : BlobDirectory) (request : BlobRequest) :
    (BlobStore.perform s request).2.root = s.root ∧
      s.tree.AltersOnly (BlobStore.perform s request).2.tree (places s.root) := by
  cases request with
  | put d data => exact s.altersOnly_putBlob d data
  | erase d => exact s.altersOnly_eraseBlob d
  | get d => exact ⟨rfl, .refl _⟩
  | contains d => exact ⟨rfl, .refl _⟩
  | digests => exact ⟨rfl, .refl _⟩

theorem staged_notMem_places {root rest : Path} : (staging root).plain ++ rest ∉ places root := by
  rintro ⟨d, hplace⟩
  simp only [staging, objects] at hplace
  rw [IsStep.plain_join (by decide), IsStep.plain_join (by decide), List.append_assoc,
    List.append_assoc] at hplace
  exact absurd (List.head_eq_of_cons_eq (List.append_cancel_left hplace)) (by decide)

/-- Whether the directory, since the tree was as given, has passed for the blobs in
    memory: nothing is staged, and nothing but blobs was touched. -/
structure Passes (t : FileTree) (root : Path) (s : BlobDirectory) (m : MemoryBlobs) : Prop where
  same : SameBlobs s m
  stays : s.root = root
  staged : s.tree.below (staging s.root) = .ok []
  alters : t.AltersOnly s.tree (places root)

section Passing

variable {t : FileTree} {root : Path} {s : BlobDirectory} {m : MemoryBlobs} (h : Passes t root s m)

include h

theorem Passes.ready : s.Ready := h.same.ready

theorem Passes.nothing_staged {rest : Path} (hrest : rest ≠ []) :
    s.tree.entry? ((BlobDirectory.staging s.root).plain ++ rest) = none := by
  have hbelow := h.staged
  rw [FileTree.below, h.ready.staging.locate] at hbelow
  exact FileTree.belowPlace_eq_nil_iff.mp (Except.ok.inj hbelow) rest hrest

theorem Passes.perform (request : BlobRequest) :
    (BlobStore.perform s request).1 = (BlobStore.perform m request).1 ∧
      Passes t root (BlobStore.perform s request).2 (BlobStore.perform m request).2 := by
  obtain ⟨hanswer, hsame⟩ := h.same.perform request
  obtain ⟨hroot, halters⟩ := s.altersOnly_perform request
  refine ⟨hanswer, hsame, hroot.trans h.stays, ?_, ?_⟩
  · have hleads := h.ready.staging.keep halters.keeps
    rw [hroot, FileTree.below, hleads.locate]
    refine congrArg Except.ok (FileTree.belowPlace_eq_nil_iff.mpr ?_)
    intro rest hrest
    rw [halters.same _ staged_notMem_places]
    exact h.nothing_staged hrest
  · rw [h.stays] at halters
    exact h.alters.trans halters

/-- **One call.** -/
theorem Passes.performThrough {spare : String} {request : BlobRequest}
    (hspare : ∀ d data, request = .put d data → IsSpare spare) :
    s.performThrough spare request = BlobStore.perform s request := by
  cases request with
  | put d data =>
    have hput := putThrough_eq h.ready (hspare d data rfl) d data
      (h.nothing_staged (List.cons_ne_nil spare []))
    rw [BlobDirectory.performThrough, hput]
    rfl
  | get d => rfl
  | contains d => rfl
  | erase d => rfl
  | digests => rfl

/-- **All calls and openings.** -/
theorem Passes.follow {events : List Event}
    (hspare : ∀ spare d data, .call spare (.put d data) ∈ events → IsSpare spare) :
    (s.follow events).1 = .ok (BlobStore.run m (events.filterMap Event.request?)).1 ∧
      Passes t root (s.follow events).2 (BlobStore.run m (events.filterMap Event.request?)).2 := by
  induction events generalizing s m with
  | nil => exact ⟨rfl, h⟩
  | cons event rest ih =>
    have hrest (spare : String) (d : Digest) (data : Bytes) (hmem : .call spare (.put d data) ∈ rest) :
        IsSpare spare := hspare spare d data (List.mem_cons_of_mem _ hmem)
    cases event with
    | call spare request =>
      obtain ⟨hanswer, hpasses⟩ := h.perform request
      obtain ⟨hanswers, hlast⟩ := ih hpasses hrest
      have hthrough : s.performThrough spare request = BlobStore.perform s request := by
        apply h.performThrough
        rintro d data rfl
        exact hspare spare d data List.mem_cons_self
      simp only [BlobDirectory.follow, hthrough, hanswers, hanswer, List.filterMap_cons,
        Event.request?, BlobStore.run]
      exact ⟨rfl, hlast⟩
    | reopen =>
      have hprepare := prepare_of_leads h.ready.objects h.ready.staging
      simp only [BlobDirectory.follow, hprepare]
      exact ih h hrest

end Passing

/-- **Interchange.**  Let a directory be made ready where no blob is and nothing is
    staged, whatever else there is.  Then every run of calls and openings succeeds
    and is answered as by blobs in memory.  Afterwards nothing is staged, and what
    stands at other places than those of blobs is what stood there. -/
theorem follow_eq_memory {t t' : FileTree} {root : Path} (hprepare : prepare t root = (.ok (), t'))
    (hempty : ∀ d, BlobStore.contains (⟨t', root⟩ : BlobDirectory) d = .ok false)
    (hstaged : t'.below (staging root) = .ok []) {events : List Event}
    (hspare : ∀ spare d data, .call spare (.put d data) ∈ events → IsSpare spare) :
    ∃ tree, follow ⟨t', root⟩ events =
        (.ok (BlobStore.run MemoryBlobs.empty (events.filterMap Event.request?)).1, ⟨tree, root⟩) ∧
      tree.below (staging root) = .ok [] ∧ t'.AltersOnly tree (places root) := by
  obtain ⟨hready, hnone⟩ := ready_of_prepare hprepare hempty
  have hpasses : Passes t' root ⟨t', root⟩ MemoryBlobs.empty := by
    refine ⟨⟨hready, trivial, ?_⟩, rfl, hstaged, .refl _⟩
    intro d
    rw [hnone, MemoryBlobs.find_empty]
  obtain ⟨hanswers, hlast⟩ := hpasses.follow hspare
  rcases hrun : follow ⟨t', root⟩ events with ⟨answers, tree, last⟩
  rw [hrun] at hanswers hlast
  have hroot : last = root := hlast.stays
  subst hroot
  exact ⟨tree, Prod.ext hanswers rfl, hlast.staged, hlast.alters⟩

theorem Ready.beside {t tree : FileTree} {root : Path} (h : Ready ⟨t, root⟩) {others : Set Path}
    (halters : t.AltersOnly tree others) (hothers : ∀ d, place ⟨t, root⟩ d ∉ others) :
    Ready ⟨tree, root⟩ ∧
      ∀ d, BlobStore.find (⟨tree, root⟩ : BlobDirectory) d = BlobStore.find (⟨t, root⟩ : BlobDirectory) d := by
  have hsame (d : Digest) : entryOf ⟨tree, root⟩ d = entryOf ⟨t, root⟩ d := halters.same _ (hothers d)
  have hready : Ready ⟨tree, root⟩ := by
    refine ⟨h.objects.keep halters.keeps, h.staging.keep halters.keeps, h.taken, ?_⟩
    intro d
    rw [hsame]
    exact h.isFile d
  refine ⟨hready, ?_⟩
  intro d
  rw [hready.find, h.find, hsame]

def shoutedPlace : Path := ["s", "objects", String.ofList (List.replicate 64 'A')]

theorem shoutedPlace_notMem_places : shoutedPlace ∉ places ["s"] := by
  rintro ⟨d, hplace⟩
  have hname : ["s", "objects"] ++ [d.toHex] = shoutedPlace := hplace
  have hread : Digest.ofHex? (String.ofList (List.replicate 64 'A')) = none := by decide
  rw [Digest.ofHex?_eq_some_iff.mpr (List.head_eq_of_cons_eq (List.append_cancel_left hname)).symm] at hread
  cases hread

def litteredTree : FileTree := Store.bareTree.put shoutedPlace (.file [7])

theorem contains_litteredTree (d : Digest) :
    BlobStore.contains (⟨litteredTree, ["s"]⟩ : BlobDirectory) d = .ok false := by
  have hprepare : prepare Store.bareTree ["s"] = (.ok (), Store.bareTree) := rfl
  obtain ⟨hready, hnone⟩ := ready_of_prepare hprepare Store.contains_bareTree
  have halters : Store.bareTree.AltersOnly litteredTree {shoutedPlace} :=
    FileTree.altersOnly_put (List.cons_ne_nil _ _) (by decide)
  have hothers (e : Digest) : place ⟨Store.bareTree, ["s"]⟩ e ∉ ({shoutedPlace} : Set Path) :=
    fun heq => shoutedPlace_notMem_places ⟨e, heq⟩
  obtain ⟨hready', hfind⟩ := hready.beside halters hothers
  rw [TransparentBlobs.contains_eq d hready', hfind, hnone]
  rfl

def litteredRun (d e : Digest) : List Event :=
  [.call ".tmpAbC123" (.put e [1, 2]), .reopen, .call ".tmpAbC123" (.put e [3]),
    .call ".tmpXyZ789" (.put d []), .call "" (.get e), .call "" .digests, .call "" (.erase e),
    .call "" (.contains e)]

theorem follow_eq_memory_littered :
    let d : Digest := ⟨List.replicate 32 0, rfl⟩
    let e : Digest := ⟨List.replicate 32 1, rfl⟩
    ∃ tree, follow ⟨litteredTree, ["s"]⟩ (litteredRun d e) =
        (.ok [.stored (.ok true), .stored (.ok false), .stored (.ok true), .bytes (.ok [1, 2]),
          .listed (.ok [d, e]), .erased (.ok ()), .there (.ok false)], ⟨tree, ["s"]⟩) ∧
      tree.below (staging ["s"]) = .ok [] ∧ tree.entry? shoutedPlace = some (.file [7]) := by
  intro d e
  have hprepare : prepare litteredTree ["s"] = (.ok (), litteredTree) := rfl
  have hspare (spare : String) (f : Digest) (data : Bytes)
      (hmem : .call spare (.put f data) ∈ litteredRun d e) : IsSpare spare := by
    have hname : spare = ".tmpAbC123" ∨ spare = ".tmpXyZ789" := by
      simp only [litteredRun, List.mem_cons, Event.call.injEq, reduceCtorEq, BlobRequest.put.injEq] at hmem
      tauto
    rcases hname with rfl | rfl
    · decide
    · decide
  obtain ⟨tree, hrun, hnothing, halters⟩ := follow_eq_memory hprepare contains_litteredTree rfl hspare
  refine ⟨tree, hrun, hnothing, ?_⟩
  rw [halters.same _ shoutedPlace_notMem_places]
  rfl

end BlobDirectory

end DedupArchive
