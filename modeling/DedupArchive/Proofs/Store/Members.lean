/-
  DedupArchive/Proofs/Store/Members.lean
  ======================================
  **A store is a finite map from names to byte strings.**

  Seen from outside a store has no rows, chunks or blobs: a save binds a name, a
  deletion unbinds it, and what is loaded is what the name is bound to.  The state
  of a run shows a map, and every request is answered as the map says and takes
  the map along.  By induction on the run all its answers are those of the map
  that is empty at first, whether the blobs are in memory or in a directory.
-/
import DedupArchive.Proofs.Ascending
import DedupArchive.Proofs.Blobs.Directory
import DedupArchive.Proofs.Store.Runs

namespace DedupArchive

abbrev Members := Std.ExtTreeMap String Bytes compare

/-- The record is one of these bytes under this name. -/
structure ArchiveRecord.Describes (a : ArchiveRecord) (name : String) (content : Bytes) : Prop where
  name : a.name = name
  length : a.length = content.length
  digest : a.digest = Digest.of content

namespace Members

def after (m : Members) : Request → Members
  | .save name script =>
    match m[name]?, script.delivered with
    | none, (data, none) => m.insert name data
    | _, _ => m
  | .delete name => m.erase name
  | _ => m

/-- Whether an answer is the one that the members give to a request. -/
def Answers (m : Members) : Request → Answer → Prop
  | .save name script, .saved result =>
    match m[name]?, script.delivered with
    | some _, _ => result = .error (.alreadyExists name)
    | none, (_, some e) => result = .error (.chunking (.io e))
    | none, (data, none) => ∃ summary, result = .ok summary ∧ summary.archive.Describes name data
  | .delete name, .deleted result =>
    match m[name]? with
    | some _ => result = .ok ()
    | none => result = .error (.notFound name)
  | .load name sink, .loaded result sink' =>
    match m[name]? with
    | some content =>
      (∃ a, result = .ok a ∧ a.Describes name content) ∧ sink'.contents = sink.contents ++ content
    | none => result = .error (.notFound name) ∧ sink' = sink
  | .info name, .info result =>
    match m[name]? with
    | some content => ∃ a, result = .ok a ∧ a.Describes name content
    | none => result = .error (.notFound name)
  | .names, .names result => result = .ok m.keys
  | _, _ => False

def AnswersAll (m : Members) : List Request → List Answer → Prop
  | [], [] => True
  | request :: rest, answer :: answers => m.Answers request answer ∧ (m.after request).AnswersAll rest answers
  | _, _ => False

/-- Names in ascending order are determined by which there are. -/
theorem keys_eq {m : Members} {names : List String}
    (hascend : names.Pairwise fun x y => compare x y = .lt) (hmem : ∀ name, name ∈ names ↔ name ∈ m) :
    names = m.keys := by
  apply eq_of_ascend hascend Std.ExtTreeMap.ordered_keys
  intro name
  rw [hmem, Std.ExtTreeMap.mem_keys]

variable {m : Members} {name name' : String} {data content : Bytes}

theorem bound_insert_iff (hunbound : m[name]? = none) : (m.insert name data)[name']? = some content ↔
    name' = name ∧ content = data ∨ m[name']? = some content := by
  rw [Std.ExtTreeMap.getElem?_insert]
  by_cases heq : name = name'
  · subst heq
    rw [if_pos Std.ReflCmp.compare_self, hunbound, Option.some.injEq]
    constructor
    · rintro rfl
      exact Or.inl ⟨rfl, rfl⟩
    · rintro (⟨-, rfl⟩ | h)
      · rfl
      · cases h
  · rw [if_neg (fun h => heq (Std.LawfulEqCmp.eq_of_compare h))]
    constructor
    · exact Or.inr
    · rintro (⟨rfl, -⟩ | h)
      · exact absurd rfl heq
      · exact h

theorem bound_erase_iff : (m.erase name)[name']? = some content ↔
    name' ≠ name ∧ m[name']? = some content := by
  rw [Std.ExtTreeMap.getElem?_erase]
  by_cases heq : name = name'
  · subst heq
    rw [if_pos Std.ReflCmp.compare_self]
    constructor
    · intro h
      cases h
    · rintro ⟨hne, -⟩
      exact absurd rfl hne
  · rw [if_neg (fun h => heq (Std.LawfulEqCmp.eq_of_compare h))]
    constructor
    · exact fun h => ⟨Ne.symm heq, h⟩
    · exact And.right

end Members

def Request.SinkTakesAll : Request → Prop
  | .load _ sink => sink.TakesAll
  | _ => True

namespace Store

variable {σ : Type} [BlobStore σ] [FaithfulBlobs σ] {s : Store σ}

/-- The members that the store shows are exactly those that it keeps. -/
def Shows (s : Store σ) (m : Members) : Prop :=
  ∀ name content, m[name]? = some content ↔ s.Keeps name content

/-! ### What is asked without a change -/

section Asked

variable {m : Members} (h : s.Sound) (hshows : s.Shows m) {name : String}

include h hshows

theorem Shows.archiveId?_eq_none_iff : s.catalog.archiveId? name = none ↔ m[name]? = none := by
  rw [← not_iff_not, ← ne_eq, ← h.exists_keeps_iff, ← ne_eq, Option.ne_none_iff_exists']
  exact exists_congr fun content => (hshows name content).symm

theorem Shows.info_of_bound {content : Bytes} (hbound : m[name]? = some content) :
    ∃ a : ArchiveRecord, s.info name = .ok a ∧ a.Describes name content ∧
      s.catalog.Holds (BlobStore.find s.blobs) a content := by
  obtain ⟨a, ha, rfl, hholds⟩ := (hshows name content).mp hbound
  exact ⟨a, info_of_mem h.lawful ha, ⟨rfl, hholds.length.symm, hholds.digest.symm⟩, hholds⟩

theorem Shows.info_of_unbound (hunbound : m[name]? = none) : s.info name = .error (.notFound name) := by
  have hnone := Catalog.archiveId?_eq_none_iff.mp ((hshows.archiveId?_eq_none_iff h).mpr hunbound)
  have harchive : s.catalog.archive? name = .ok none := by
    rw [Catalog.archive?]
    cases hfind : s.catalog.archives.find? fun r => r.name.equals (.text name) && r.isComplete with
    | none => rfl
    | some r =>
      have hmatch := List.find?_some hfind
      rw [Bool.and_eq_true, Cell.equals_text_iff] at hmatch
      exact absurd hmatch.1 (hnone r (List.mem_of_find?_eq_some hfind))
  rw [info, harchive]

theorem Shows.names : s.names = .ok m.keys := by
  obtain ⟨names, hnames⟩ : ∃ names, s.catalog.archiveNames = .ok names := by
    refine Catalog.exists_archiveNames ?_
    intro r hr
    obtain ⟨a, rfl, -⟩ := h.whole r hr
    exact ⟨a.name, rfl⟩
  have hmem (name : String) : name ∈ names ↔ name ∈ m := by
    rw [Catalog.mem_archiveNames_iff hnames, Std.ExtTreeMap.mem_iff_isSome_getElem?,
      Option.isSome_iff_exists]
    constructor
    · rintro ⟨r, hr, -, hname⟩
      obtain ⟨a, rfl, content, hholds⟩ := h.whole r hr
      exact ⟨content, (hshows name content).mpr ⟨a, hr, Cell.text.inj hname, hholds⟩⟩
    · rintro ⟨content, hbound⟩
      obtain ⟨a, ha, rfl, -⟩ := (hshows name content).mp hbound
      exact ⟨a.row, ha, a.isComplete_row, rfl⟩
  rw [Store.names, hnames, Members.keys_eq (h.lawful.archiveNames_ascend hnames) hmem]

end Asked

/-! ### What changes the members -/

section Changed

variable {m : Members} (h : s.Sound) (hshows : s.Shows m) {name : String}

include h hshows

/-- A save answers as the members do and takes them along. -/
theorem Shows.save {script : Script} (hfits : script.delivered.1.length < 2 ^ 63)
    (hdistinct : Set.InjOn Digest.of (s.occurring script)) :
    m.Answers (.save name script) (.saved (s.save name script).1) ∧
      (s.save name script).2.Shows (m.after (.save name script)) := by
  have hbound_iff : s.catalog.archiveId? name = none ↔ m[name]? = none :=
    hshows.archiveId?_eq_none_iff h
  rcases h.save_cases name hfits with ⟨htaken, hsave⟩ | ⟨hfree, blobs, -, hfind,
    ⟨e, hfailure, hsave⟩ | ⟨hend, hadmits, hflatten, summary, hrecord, hsave⟩⟩
  · obtain ⟨content, hbound⟩ := Option.ne_none_iff_exists'.mp (mt hbound_iff.mpr htaken)
    rw [hsave]
    refine ⟨?_, ?_⟩
    · simp only [Members.Answers, hbound]
    · simp only [Members.after, hbound]
      exact hshows
  · have hunbound := hbound_iff.mp hfree
    have hdelivered : script.delivered = (script.delivered.1, some e) := Prod.ext rfl hfailure
    rw [hsave]
    refine ⟨?_, ?_⟩
    · simp only [Members.Answers, hunbound]
      rw [hdelivered]
    · simp only [Members.after, hunbound]
      rw [hdelivered]
      exact fun name' content => (hshows name' content).trans (keeps_more_iff h hfind).symm
  · have hunbound := hbound_iff.mp hfree
    have hdelivered : script.delivered = (script.delivered.1, none) := Prod.ext rfl hend
    have hdigest : Digest.of (cut s.params script).flatten =
        (s.recordOf name script.delivered.1).digest := congrArg Digest.of hflatten
    rw [hsave]
    refine ⟨?_, ?_⟩
    · simp only [Members.Answers, hunbound]
      rw [hdelivered]
      refine ⟨summary, rfl, ?_⟩
      rw [hrecord]
      exact ⟨rfl, rfl, rfl⟩
    · simp only [Members.after, hunbound]
      rw [hdelivered]
      intro name' content
      rw [Members.bound_insert_iff hunbound, hshows,
        keeps_entered_iff h hadmits hfind hdigest hdistinct, hflatten]
      rfl

/-- A deletion answers as the members do and takes them along. -/
theorem Shows.delete : m.Answers (.delete name) (.deleted (s.delete name).1) ∧
    (s.delete name).2.Shows (m.after (.delete name)) := by
  rcases h.delete_cases name with ⟨hfree, hdelete⟩ | ⟨a, rows, blobs, ha, rfl, -, -, hfind, hdelete⟩
  · have hunbound := (hshows.archiveId?_eq_none_iff h).mp hfree
    rw [hdelete]
    refine ⟨?_, ?_⟩
    · simp only [Members.Answers, hunbound]
    · intro name' content
      rw [Members.after, Members.bound_erase_iff, hshows]
      constructor
      · exact And.right
      · intro hkeeps
        refine ⟨?_, hkeeps⟩
        rintro rfl
        rw [← hshows, hunbound] at hkeeps
        cases hkeeps
  · obtain ⟨a', hrow, content, hholds⟩ := h.whole a.row ha
    cases ArchiveRecord.row_inj hrow
    have hbound : m[a.name]? = some content := (hshows a.name content).mpr ⟨a, ha, rfl, hholds⟩
    rw [hdelete]
    refine ⟨?_, ?_⟩
    · simp only [Members.Answers, hbound]
    · intro name' content'
      rw [Members.after, Members.bound_erase_iff, hshows]
      exact (keeps_removed_iff h ha hfind).symm

end Changed

/-! ### Runs -/

section Run

variable {m : Members} {p : Params} {chunks : Set Bytes} (hdistinct : Set.InjOn Digest.of chunks)

include hdistinct

/-- One request. -/
theorem Shows.perform (h : s.Within p chunks) (hshows : s.Shows m) {request : Request}
    (hfits : request.Fits) (hsink : request.SinkTakesAll)
    (hcut : ∀ data ∈ request.cut p, data ∈ chunks) :
    m.Answers request (s.perform request).1 ∧ (s.perform request).2.Shows (m.after request) := by
  cases request with
  | save name script => exact hshows.save h.sound hfits (hdistinct.mono (h.occurring_subset hcut))
  | delete name => exact hshows.delete h.sound
  | load name sink =>
    refine ⟨?_, hshows⟩
    cases hbound : m[name]? with
    | none =>
      have hload : s.load name sink = (.error (.notFound name), sink) := by
        rw [Store.load, hshows.info_of_unbound h.sound hbound]
      simp only [Store.perform, Members.Answers, hbound, hload, and_self]
    | some content =>
      obtain ⟨a, hinfo, hdescribes, hholds⟩ := hshows.info_of_bound h.sound hbound
      obtain ⟨sink', hload, hcontents⟩ := load_of_holds (hdescribes.name ▸ hinfo) hholds hsink
      rw [hdescribes.name] at hload
      simp only [Store.perform, Members.Answers, hbound, hload]
      exact ⟨⟨a, rfl, hdescribes⟩, hcontents⟩
  | info name =>
    refine ⟨?_, hshows⟩
    cases hbound : m[name]? with
    | none => simp only [Store.perform, Members.Answers, hbound, hshows.info_of_unbound h.sound hbound]
    | some content =>
      obtain ⟨a, hinfo, hdescribes, -⟩ := hshows.info_of_bound h.sound hbound
      simp only [Store.perform, Members.Answers, hbound, hinfo]
      exact ⟨a, rfl, hdescribes⟩
  | names => exact ⟨hshows.names h.sound, hshows⟩

/-- Requests in a row. -/
theorem Shows.run (h : s.Within p chunks) (hshows : s.Shows m) {requests : List Request}
    (hfits : ∀ request ∈ requests, request.Fits)
    (hsinks : ∀ request ∈ requests, request.SinkTakesAll)
    (hcut : ∀ request ∈ requests, ∀ data ∈ request.cut p, data ∈ chunks) :
    m.AnswersAll requests (s.run requests).1 := by
  induction requests generalizing s m with
  | nil => trivial
  | cons request rest ih =>
    have hfirst := hfits request List.mem_cons_self
    have hfirstCut := hcut request List.mem_cons_self
    obtain ⟨hanswer, hnext⟩ :=
      hshows.perform hdistinct h hfirst (hsinks request List.mem_cons_self) hfirstCut
    exact ⟨hanswer, ih (h.perform hdistinct hfirst hfirstCut) hnext
      (fun r hr => hfits r (List.mem_cons_of_mem request hr))
      (fun r hr => hsinks r (List.mem_cons_of_mem request hr))
      (fun r hr => hcut r (List.mem_cons_of_mem request hr))⟩

end Run

/-- A store of nothing, once it is opened, answers every run as the empty members. -/
theorem answers_of_empty {p : Params} (hvalid : p.validate = .ok ()) {blobs : σ}
    (hready : FaithfulBlobs.Ready blobs) (hempty : ∀ d, BlobStore.find blobs d = none)
    {requests : List Request} (hfits : ∀ request ∈ requests, request.Fits)
    (hsinks : ∀ request ∈ requests, request.SinkTakesAll)
    (hdistinct : Set.InjOn Digest.of (cutIn p requests)) :
    ∃ s, ofParts Catalog.empty blobs p = .ok s ∧ Members.AnswersAll ∅ requests (s.run requests).1 := by
  refine ⟨⟨.empty, blobs, p, none⟩, by rw [ofParts, hvalid], ?_⟩
  have hwithin := within_empty hready hempty p none (cutIn p requests)
  have hshows : Shows ⟨.empty, blobs, p, none⟩ ∅ := by
    intro name content
    rw [Std.ExtTreeMap.getElem?_empty]
    constructor
    · intro h
      cases h
    · rintro ⟨a, ha, -⟩
      cases ha
  exact hshows.run hdistinct hwithin hfits hsinks fun request hrequest data hdata =>
    ⟨request, hrequest, hdata⟩

/-- **A store is a finite map.**  From an empty catalog and no blobs, in memory or
    in a directory that was prepared for them, every answer of every run is the one
    of the map from names to byte strings that the requests build up. -/
theorem run_answers_as_members {p : Params} (hvalid : p.validate = .ok ()) {requests : List Request}
    (hfits : ∀ request ∈ requests, request.Fits)
    (hsinks : ∀ request ∈ requests, request.SinkTakesAll)
    (hdistinct : Set.InjOn Digest.of (cutIn p requests)) :
    (∃ s, ofParts Catalog.empty MemoryBlobs.empty p = .ok s ∧
      Members.AnswersAll ∅ requests (s.run requests).1) ∧
    ∀ {t t' : FileTree} {root : Path}, BlobDirectory.prepare t root = (.ok (), t') →
      (∀ d, BlobStore.contains (⟨t', root⟩ : BlobDirectory) d = .ok false) →
        ∃ s, ofParts Catalog.empty (⟨t', root⟩ : BlobDirectory) p = .ok s ∧
          Members.AnswersAll ∅ requests (s.run requests).1 := by
  constructor
  · exact answers_of_empty hvalid trivial MemoryBlobs.find_empty hfits hsinks hdistinct
  · intro t t' root hprepare hempty
    obtain ⟨hready, hnone⟩ := BlobDirectory.ready_of_prepare hprepare hempty
    exact answers_of_empty hvalid hready hnone hfits hsinks hdistinct

def bareTree : FileTree :=
  ((FileTree.ofDirectory "s").put ["s", "objects"] .directory).put ["s", "tmp"] .directory

theorem contains_bareTree (d : Digest) :
    BlobStore.contains (⟨bareTree, ["s"]⟩ : BlobDirectory) d = .ok false := by
  have hnone (e : Digest) : bareTree.entry? ["s", "objects", e.toHex] = none := by
    have hne (name : String) : ["s", name] ≠ ["s", "objects", e.toHex] := by simp
    show FileTree.entry? (FileTree.put (FileTree.put (FileTree.put ⟨∅⟩ ["s"] .directory) _ _) _ _) _ = _
    rw [FileTree.entry_put (by decide), if_neg (hne "tmp"), FileTree.entry_put (by decide),
      if_neg (hne "objects"), FileTree.entry_put (by decide), if_neg (by simp),
      FileTree.entry_eq (List.cons_ne_nil _ _)]
    exact Std.ExtTreeMap.getElem?_empty
  have htaken (e : Digest) : Path.Taken ["s", "objects", e.toHex] := by
    have htext : Path.text ["s", "objects", e.toHex] = "s/objects/" ++ e.toHex := by
      rw [Path.text, String.intercalate_cons_cons, String.intercalate_cons_cons,
        String.intercalate_singleton, ← String.append_assoc]
      rfl
    constructor
    · rw [Path.refusal?, if_neg (by simp [e.nul_notMem_toHex]), if_neg]
      rw [htext, String.utf8ByteSize_append, e.utf8ByteSize_toHex]
      decide
    · simp only [List.any_cons, e.isTooLong_toHex]
      decide
  have hready : BlobDirectory.Ready ⟨bareTree, ["s"]⟩ := by
    refine ⟨⟨⟨rfl, rfl⟩, rfl, rfl, rfl⟩, ⟨⟨rfl, rfl⟩, rfl, rfl, rfl⟩, htaken, ?_⟩
    intro e hentry
    cases (hnone e).symm.trans hentry
  show BlobDirectory.contains _ _ = _
  have hentry : BlobDirectory.entryOf ⟨bareTree, ["s"]⟩ d = none := hnone d
  rw [BlobDirectory.contains, hready.contains, hentry]
  rfl

def sharedContent : List Request :=
  [.save "a" threeBytes, .save "b" threeBytes, .delete "a", .load "b" .unlimited, .names]

theorem run_answers_as_members_threeBytes :
    (∃ s, ofParts Catalog.empty MemoryBlobs.empty .standard = .ok s ∧
      Members.AnswersAll ∅ sharedContent (s.run sharedContent).1) ∧
    ∃ s, ofParts Catalog.empty (⟨bareTree, ["s"]⟩ : BlobDirectory) .standard = .ok s ∧
      Members.AnswersAll ∅ sharedContent (s.run sharedContent).1 := by
  have hfits : ∀ request ∈ sharedContent, request.Fits := by
    have hthree : threeBytes.delivered.1.length < 2 ^ 63 := by decide
    simp only [sharedContent, List.forall_mem_cons, Request.Fits, hthree, List.not_mem_nil,
      false_implies, implies_true, and_self]
  have hsinks : ∀ request ∈ sharedContent, request.SinkTakesAll := by
    simp [sharedContent, Request.SinkTakesAll, Sink.takesAll_unlimited]
  have hcut : ∀ data ∈ cutIn .standard sharedContent, data = [1, 2, 3] := by
    rintro data ⟨request, hrequest, hdata⟩
    simp only [sharedContent, List.mem_cons, List.not_mem_nil, or_false] at hrequest
    rcases hrequest with rfl | rfl | rfl | rfl | rfl
    · rw [Request.cut, cut_threeBytes] at hdata
      exact List.mem_singleton.mp hdata
    · rw [Request.cut, cut_threeBytes] at hdata
      exact List.mem_singleton.mp hdata
    · cases hdata
    · cases hdata
    · cases hdata
  have hdistinct : Set.InjOn Digest.of (cutIn .standard sharedContent) := by
    intro x hx y hy _
    rw [hcut x hx, hcut y hy]
  obtain ⟨hmemory, hdirectory⟩ :=
    @run_answers_as_members .standard (by decide) sharedContent hfits hsinks hdistinct
  have hprepare : BlobDirectory.prepare (FileTree.ofDirectory "s") ["s"] = (.ok (), bareTree) := rfl
  exact ⟨hmemory, hdirectory hprepare contains_bareTree⟩

end Store

end DedupArchive
