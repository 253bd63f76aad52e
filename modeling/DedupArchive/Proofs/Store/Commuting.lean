/-
  DedupArchive/Proofs/Store/Commuting.lean
  ========================================
  **Changes under different names may be made in either order.**

  A chunk that two members share is put by the save that comes first and kept by
  the deletion that comes first, and the rows get other ids in the other order.
  In the end it makes no difference: there are the same blobs, and the same
  archives up to their ids.  Each change is first said by what it does, once for
  a save and once for a deletion; then there is one lemma for each pair.
-/
import DedupArchive.Proofs.Catalog.Entries
import DedupArchive.Proofs.Store.Runs

namespace DedupArchive

inductive Change where
  | save (name : String) (script : Script)
  | delete (name : String)

namespace Change

def name : Change → String
  | .save name _ => name
  | .delete name => name

def Fits : Change → Prop
  | .save _ script => script.delivered.1.length < 2 ^ 63
  | .delete _ => True

def cut (p : Params) : Change → List Bytes
  | .save _ script => Store.cut p script
  | .delete _ => []

end Change

/-- A part that is put where nothing else can lie is there afterwards. -/
theorem or_some_eq_of_same {there : Option Bytes} {part : Bytes}
    (hsame : ∀ found, there = some found → found = part) : there.or (some part) = some part := by
  cases there with
  | none => rfl
  | some found => rw [hsame found rfl, Option.some_or]

namespace Store

variable {σ : Type} [BlobStore σ]

def change (s : Store σ) : Change → Option (Store σ)
  | .save name script =>
    match s.save name script with
    | (.ok _, s') => some s'
    | (.error _, _) => none
  | .delete name =>
    match s.delete name with
    | (.ok (), s') => some s'
    | (.error _, _) => none

/-- The same blobs under the same digests, and the same archives up to their ids. -/
structure Alike (s t : Store σ) : Prop where
  digests : ∃ here there, BlobStore.digests s.blobs = .ok here ∧
    BlobStore.digests t.blobs = .ok there ∧ ∀ d, d ∈ here ↔ d ∈ there
  blobs : ∀ d, BlobStore.find s.blobs d = BlobStore.find t.blobs d
  entries : s.catalog.entries.Perm t.catalog.entries

theorem Alike.symm {s t : Store σ} (h : s.Alike t) : t.Alike s where
  digests := by
    obtain ⟨here, there, hhere, hthere, hmem⟩ := h.digests
    exact ⟨there, here, hthere, hhere, fun d => (hmem d).symm⟩
  blobs d := (h.blobs d).symm
  entries := h.entries.symm

variable [FaithfulBlobs σ]

/-- The tables keep the rules, and every blob is what its digest says. -/
structure Intact (s : Store σ) : Prop where
  lawful : s.catalog.Lawful
  linked : s.catalog.Linked
  ready : FaithfulBlobs.Ready s.blobs
  honest : ∀ d data, BlobStore.find s.blobs d = some data → Digest.of data = d

theorem alike_of_ready {s t : Store σ} (hs : FaithfulBlobs.Ready s.blobs)
    (ht : FaithfulBlobs.Ready t.blobs) (hblobs : ∀ d, BlobStore.find s.blobs d = BlobStore.find t.blobs d)
    (hentries : s.catalog.entries.Perm t.catalog.entries) : s.Alike t := by
  obtain ⟨here, hhere, hspec⟩ := FaithfulBlobs.digests_spec hs
  obtain ⟨there, hthere, hspec'⟩ := FaithfulBlobs.digests_spec ht
  refine ⟨⟨here, there, hhere, hthere, ?_⟩, hblobs, hentries⟩
  intro d
  rw [hspec, hspec', hblobs]

/-! ### A save -/

structure Enters (s : Store σ) (name : String) (script : Script) (s' : Store σ) : Prop where
  free : s.catalog.archiveId? name = none
  whole : script.delivered.2 = none
  admits : s.catalog.Admits (s.recordOf name script.delivered.1) (cut s.params script)
  catalog : s'.catalog = s.catalog.enter (s.recordOf name script.delivered.1) (cut s.params script)
  params : s'.params = s.params
  ready : FaithfulBlobs.Ready s'.blobs
  find : ∀ d, BlobStore.find s'.blobs d =
    (BlobStore.find s.blobs d).or (partOf (cut s.params script) d)

section Enters

variable {s s' : Store σ} {name : String} {script : Script}

theorem exists_enters (hlinked : s.catalog.Linked) (hready : FaithfulBlobs.Ready s.blobs)
    (hname : s.catalog.archiveId? name = none) (hfits : script.delivered.1.length < 2 ^ 63)
    (hwhole : script.delivered.2 = none) :
    ∃ s', s.change (.save name script) = some s' ∧ s.Enters name script s' := by
  have hdelivered : script.delivered = (script.delivered.1, none) := by rw [← hwhole]
  obtain ⟨summary, blobs, hsave, -, hready', hfind⟩ :=
    save_of_delivered hlinked.next_free hready hname hfits hdelivered
  have hchange : s.change (.save name script) = some { s with
      catalog := s.catalog.enter (s.recordOf name script.delivered.1) (cut s.params script), blobs } := by
    simp only [change, hsave]
  exact ⟨_, hchange, hname, hwhole, admits_of_delivered hlinked.next_free hname hfits hdelivered,
    rfl, rfl, hready', hfind⟩

theorem enters_of_change (hlinked : s.catalog.Linked) (hready : FaithfulBlobs.Ready s.blobs)
    (hfits : script.delivered.1.length < 2 ^ 63) (h : s.change (.save name script) = some s') :
    s.Enters name script s' := by
  by_cases hname : s.catalog.archiveId? name = none
  · cases hfailure : script.delivered.2 with
    | some e =>
      have hdelivered : script.delivered = (script.delivered.1, some e) := by rw [← hfailure]
      obtain ⟨blobs, hsave, -⟩ :=
        save_of_failure hlinked.next_free hready hname hfits hdelivered
      simp only [change, hsave, reduceCtorEq] at h
    | none =>
      obtain ⟨s'', hchange, henters⟩ := exists_enters hlinked hready hname hfits hfailure
      rw [hchange, Option.some.injEq] at h
      rw [← h]
      exact henters
  · simp only [change, save_of_bound hname, reduceCtorEq] at h

def entryFor (p : Params) (name : String) (script : Script) : Catalog.Entry :=
  Catalog.entryOfParts ⟨0, name, script.delivered.1.length, Digest.of script.delivered.1⟩ (cut p script)

theorem Enters.entries (h : s.Enters name script s') :
    s'.catalog.entries = entryFor s.params name script :: s.catalog.entries := by
  rw [h.catalog, Catalog.entries_enter h.admits]
  rfl

theorem Enters.linked (h : s.Enters name script s') (hlinked : s.catalog.Linked) :
    s'.catalog.Linked := by
  rw [h.catalog]
  exact hlinked.enter

theorem Enters.lawful (h : s.Enters name script s') (hlawful : s.catalog.Lawful) :
    s'.catalog.Lawful := by
  rw [h.catalog]
  exact hlawful.enter h.admits

theorem Enters.archiveId?_of_ne (h : s.Enters name script s') {other : String} (hne : name ≠ other) :
    s'.catalog.archiveId? other = s.catalog.archiveId? other := by
  rw [h.catalog]
  exact Catalog.archiveId?_enter_of_ne hne

end Enters

/-! ### A deletion -/

/-- What a deletion does that succeeds: a blob of the archive stays only if it is
    still referred to. -/
structure Removes (s : Store σ) (name : String) (id : Int) (s' : Store σ) : Prop where
  bound : s.catalog.archiveId? name = some id
  readable : ∃ digests, s.catalog.archiveDigests id = .ok digests
  catalog : s'.catalog = s.catalog.deleteArchive id
  params : s'.params = s.params
  ready : FaithfulBlobs.Ready s'.blobs
  find : ∀ d data, BlobStore.find s'.blobs d = some data ↔ BlobStore.find s.blobs d = some data ∧
    (s.catalog.Uses id d → s'.catalog.isReferenced d = true)

section Removes

variable {s s' : Store σ} {name : String} {id : Int}

theorem exists_removes (hlawful : s.catalog.Lawful) (hready : FaithfulBlobs.Ready s.blobs)
    (hname : s.catalog.archiveId? name = some id)
    (hreadable : ∃ digests, s.catalog.archiveDigests id = .ok digests) :
    ∃ s', s.change (.delete name) = some s' ∧ s.Removes name id s' := by
  obtain ⟨digests, hdigests⟩ := hreadable
  obtain ⟨blobs, hdelete, hready', hfind⟩ := delete_of_digests hlawful hready hname hdigests
  have hchange : s.change (.delete name) =
      some { s with catalog := s.catalog.deleteArchive id, blobs } := by
    simp only [change, hdelete]
  refine ⟨_, hchange, hname, ⟨digests, hdigests⟩, rfl, rfl, hready', ?_⟩
  intro d data
  have huses : d ∈ digests ↔ s.catalog.Uses id d := Catalog.mem_archiveDigests_iff hdigests
  rw [← huses]
  simp only [hfind]
  split
  · rename_i hgone
    constructor
    · intro hfound
      cases hfound
    · rintro ⟨-, hkept⟩
      exact absurd (hkept hgone.1) (Bool.eq_false_iff.mp hgone.2)
  · rename_i hkept
    rw [not_and, Bool.not_eq_false] at hkept
    exact ⟨fun hfound => ⟨hfound, hkept⟩, fun hfound => hfound.1⟩

theorem removes_of_change (hlawful : s.catalog.Lawful) (hready : FaithfulBlobs.Ready s.blobs)
    (h : s.change (.delete name) = some s') : ∃ id, s.Removes name id s' := by
  cases hname : s.catalog.archiveId? name with
  | none => simp only [change, delete_of_unbound hname, reduceCtorEq] at h
  | some id =>
    cases hdigests : s.catalog.archiveDigests id with
    | error e =>
      have hbegin : (Transaction.begin s.catalog).current.archiveDigests id = .error e := hdigests
      simp only [change, delete, hname, hbegin, reduceCtorEq] at h
    | ok digests =>
      obtain ⟨s'', hchange, hremoves⟩ := exists_removes hlawful hready hname ⟨digests, hdigests⟩
      rw [hchange, Option.some.injEq] at h
      rw [← h]
      exact ⟨id, hremoves⟩

theorem Removes.entries (h : s.Removes name id s') (hlawful : s.catalog.Lawful) :
    s'.catalog.entries = s.catalog.entries.filter fun e => e.name ≠ .text name := by
  rw [h.catalog]
  exact Catalog.entries_deleteArchive hlawful h.bound

theorem Removes.linked (h : s.Removes name id s') (hlinked : s.catalog.Linked) :
    s'.catalog.Linked := by
  rw [h.catalog]
  exact hlinked.deleteArchive id

theorem Removes.lawful (h : s.Removes name id s') (hlawful : s.catalog.Lawful) :
    s'.catalog.Lawful := by
  rw [h.catalog]
  exact hlawful.deleteArchive id

theorem Removes.archiveId?_of_ne (h : s.Removes name id s') (hlawful : s.catalog.Lawful)
    {other : String} (hne : other ≠ name) :
    s'.catalog.archiveId? other = s.catalog.archiveId? other := by
  rw [h.catalog]
  exact Catalog.archiveId?_deleteArchive_of_ne hlawful h.bound hne

end Removes

/-! ### Two changes -/

/-- What survives two deletions is used by neither archive, or by a third one. -/
theorem survives_iff {found used used' third : Prop} :
    (found ∧ (used → used' ∨ third)) ∧ (used' → third) ↔ found ∧ (used ∨ used' → third) := by
  constructor
  · rintro ⟨⟨hfound, hused⟩, hused'⟩
    refine ⟨hfound, ?_⟩
    rintro (h | h)
    · exact (hused h).elim hused' id
    · exact hused' h
  · rintro ⟨hfound, hboth⟩
    exact ⟨⟨hfound, fun h => Or.inr (hboth (Or.inl h))⟩, fun h => hboth (Or.inr h)⟩

section Pairs

variable {s s₁ s₂ : Store σ} (h : s.Intact)

include h

/-- Two saves. -/
theorem Enters.comm {name name' : String} {script script' : Script} (hnames : name ≠ name')
    (hfits : script.delivered.1.length < 2 ^ 63) (hfits' : script'.delivered.1.length < 2 ^ 63)
    (hdistinct : Set.InjOn Digest.of
      {data | data ∈ cut s.params script ∨ data ∈ cut s.params script'})
    (h₁ : s.Enters name script s₁) (h₂ : s.Enters name' script' s₂) :
    ∃ s₁₂ s₂₁, s₁.change (.save name' script') = some s₁₂ ∧
      s₂.change (.save name script) = some s₂₁ ∧ s₁₂.Alike s₂₁ := by
  obtain ⟨s₁₂, hchange₁₂, h₁₂⟩ := exists_enters (h₁.linked h.linked) h₁.ready
    ((h₁.archiveId?_of_ne hnames).trans h₂.free) hfits' h₂.whole
  obtain ⟨s₂₁, hchange₂₁, h₂₁⟩ := exists_enters (h₂.linked h.linked) h₂.ready
    ((h₂.archiveId?_of_ne hnames.symm).trans h₁.free) hfits h₁.whole
  refine ⟨s₁₂, s₂₁, hchange₁₂, hchange₂₁, alike_of_ready h₁₂.ready h₂₁.ready ?_ ?_⟩
  · intro d
    rw [h₁₂.find, h₁.find, h₂₁.find, h₂.find, h₁.params, h₂.params, Option.or_assoc, Option.or_assoc]
    congr 1
    cases hpart : partOf (cut s.params script) d with
    | none => rw [Option.none_or, Option.or_none]
    | some part =>
      cases hpart' : partOf (cut s.params script') d with
      | none => rfl
      | some part' =>
        obtain ⟨hmem, hdigest⟩ := partOf_eq_some hpart
        obtain ⟨hmem', hdigest'⟩ := partOf_eq_some hpart'
        rw [hdistinct (Or.inl hmem) (Or.inr hmem') (hdigest.trans hdigest'.symm)]
  · rw [h₁₂.entries, h₁.entries, h₂₁.entries, h₂.entries, h₁.params, h₂.params]
    exact List.Perm.swap _ _ _

/-- A save and a deletion. -/
theorem Enters.comm_removes {name name' : String} {script : Script} {id : Int} (hnames : name ≠ name')
    (hfits : script.delivered.1.length < 2 ^ 63) (hdistinct : Set.InjOn Digest.of (s.occurring script))
    (h₁ : s.Enters name script s₁) (h₂ : s.Removes name' id s₂) :
    ∃ s₁₂ s₂₁, s₁.change (.delete name') = some s₁₂ ∧
      s₂.change (.save name script) = some s₂₁ ∧ s₁₂.Alike s₂₁ := by
  obtain ⟨r, hr, -, hid⟩ := Catalog.exists_mem_of_archiveId? h₂.bound
  have hother : (s.recordOf name script.delivered.1).id ≠ id := by
    rw [← hid]
    exact (Catalog.ne_nextId hr).symm
  have hreadable : ∃ digests, s₁.catalog.archiveDigests id = .ok digests := by
    rw [h₁.catalog, Catalog.archiveDigests_enter_of_ne hother]
    exact h₂.readable
  obtain ⟨s₁₂, hchange₁₂, h₁₂⟩ := exists_removes (h₁.lawful h.lawful) h₁.ready
    ((h₁.archiveId?_of_ne hnames).trans h₂.bound) hreadable
  obtain ⟨s₂₁, hchange₂₁, h₂₁⟩ := exists_enters (h₂.linked h.linked) h₂.ready
    ((h₂.archiveId?_of_ne h.lawful hnames).trans h₁.free) hfits h₁.whole
  refine ⟨s₁₂, s₂₁, hchange₁₂, hchange₂₁, alike_of_ready h₁₂.ready h₂₁.ready ?_ ?_⟩
  · intro d
    have huses : s₁.catalog.Uses id d ↔ s.catalog.Uses id d := by
      rw [h₁.catalog]
      exact Catalog.uses_enter_of_ne hother
    have hreferenced : s₁₂.catalog.isReferenced d = true ↔ s₂.catalog.isReferenced d = true ∨
        ∃ part ∈ cut s.params script, Digest.of part = d := by
      rw [h₁₂.catalog, h₁.catalog, Catalog.deleteArchive_enter hother, h₂.catalog]
      exact Catalog.isReferenced_enter_iff
    apply Option.ext
    intro data
    rw [h₁₂.find, h₁.find, h₂₁.find, h₂.params, huses, hreferenced]
    cases hpart : partOf (cut s.params script) d with
    | none =>
      rw [partOf_eq_none_iff] at hpart
      have hno : ¬ ∃ part ∈ cut s.params script, Digest.of part = d := by
        rintro ⟨part, hmem, hdigest⟩
        exact hpart part hmem hdigest
      rw [Option.or_none, Option.or_none, h₂.find, or_iff_left hno]
    | some part =>
      obtain ⟨hmem, hdigest⟩ := partOf_eq_some hpart
      -- what is there under the digest is the part, so nothing is lost if it goes first
      have hsame {found : Bytes} (hfound : BlobStore.find s.blobs d = some found) : found = part :=
        hdistinct (Or.inl ⟨d, hfound⟩) (Or.inr hmem) ((h.honest d found hfound).trans hdigest.symm)
      have hbefore : (BlobStore.find s.blobs d).or (some part) = some part :=
        or_some_eq_of_same fun _ hfound => hsame hfound
      have hafter : (BlobStore.find s₂.blobs d).or (some part) = some part :=
        or_some_eq_of_same fun found hfound => hsame ((h₂.find d found).mp hfound).1
      rw [hbefore, hafter, and_iff_left]
      intro _
      exact Or.inr ⟨part, hmem, hdigest⟩
  · rw [h₁₂.entries (h₁.lawful h.lawful), h₁.entries, h₂₁.entries, h₂.entries h.lawful, h₂.params]
    have hkept : (entryFor s.params name script).name ≠ .text name' := by
      intro heq
      exact hnames (Cell.text.inj heq)
    rw [List.filter_cons, if_pos (decide_eq_true hkept)]

/-- Two deletions. -/
theorem Removes.comm {name name' : String} {id id' : Int} (hnames : name ≠ name')
    (h₁ : s.Removes name id s₁) (h₂ : s.Removes name' id' s₂) :
    ∃ s₁₂ s₂₁, s₁.change (.delete name') = some s₁₂ ∧
      s₂.change (.delete name) = some s₂₁ ∧ s₁₂.Alike s₂₁ := by
  have hother : id' ≠ id := by
    obtain ⟨r, hr, hname, hid⟩ := Catalog.exists_mem_of_archiveId? h₁.bound
    obtain ⟨r', hr', hname', hid'⟩ := Catalog.exists_mem_of_archiveId? h₂.bound
    intro heq
    have hrow := h.lawful.eq_of_id hr hr' ((hid.trans heq.symm).trans hid'.symm)
    rw [hrow, hname'] at hname
    exact hnames (Cell.text.inj hname).symm
  have hreadable₁ : ∃ digests, s₁.catalog.archiveDigests id' = .ok digests := by
    rw [h₁.catalog, Catalog.archiveDigests_deleteArchive_of_ne hother]
    exact h₂.readable
  have hreadable₂ : ∃ digests, s₂.catalog.archiveDigests id = .ok digests := by
    rw [h₂.catalog, Catalog.archiveDigests_deleteArchive_of_ne hother.symm]
    exact h₁.readable
  obtain ⟨s₁₂, hchange₁₂, h₁₂⟩ := exists_removes (h₁.lawful h.lawful) h₁.ready
    ((h₁.archiveId?_of_ne h.lawful hnames.symm).trans h₂.bound) hreadable₁
  obtain ⟨s₂₁, hchange₂₁, h₂₁⟩ := exists_removes (h₂.lawful h.lawful) h₂.ready
    ((h₂.archiveId?_of_ne h.lawful hnames).trans h₁.bound) hreadable₂
  refine ⟨s₁₂, s₂₁, hchange₁₂, hchange₂₁, alike_of_ready h₁₂.ready h₂₁.ready ?_ ?_⟩
  · intro d
    have hcatalog : s₂₁.catalog = s₁₂.catalog := by
      rw [h₂₁.catalog, h₂.catalog, h₁₂.catalog, h₁.catalog, Catalog.deleteArchive_comm]
    have huses₁ : s₁.catalog.Uses id' d ↔ s.catalog.Uses id' d := by
      rw [h₁.catalog]
      exact Catalog.uses_deleteArchive_of_ne hother
    have huses₂ : s₂.catalog.Uses id d ↔ s.catalog.Uses id d := by
      rw [h₂.catalog]
      exact Catalog.uses_deleteArchive_of_ne hother.symm
    have hreferenced₁ := Catalog.isReferenced_iff_uses_or s₁.catalog id' d
    have hreferenced₂ := Catalog.isReferenced_iff_uses_or s₂.catalog id d
    rw [← h₁₂.catalog, huses₁] at hreferenced₁
    rw [← h₂₁.catalog, hcatalog, huses₂] at hreferenced₂
    apply Option.ext
    intro data
    rw [h₁₂.find, h₁.find, h₂₁.find, h₂.find, huses₁, huses₂, hreferenced₁, hreferenced₂, hcatalog,
      survives_iff, survives_iff, or_comm]
  · rw [h₁₂.entries (h₁.lawful h.lawful), h₁.entries h.lawful, h₂₁.entries (h₂.lawful h.lawful),
      h₂.entries h.lawful, List.filter_comm]

end Pairs

/-- **Changes under different names commute.**  If each of two changes succeeds,
    each still does after the other, and both orders come to the same blobs and
    the same archives. -/
theorem change_comm {s : Store σ} (h : s.Intact) {x y : Change} (hnames : x.name ≠ y.name)
    (hx : x.Fits) (hy : y.Fits)
    (hdistinct : Set.InjOn Digest.of {data | (∃ d, BlobStore.find s.blobs d = some data) ∨
      data ∈ x.cut s.params ∨ data ∈ y.cut s.params})
    {s₁ s₂ : Store σ} (h₁ : s.change x = some s₁) (h₂ : s.change y = some s₂) :
    ∃ s₁₂ s₂₁, s₁.change y = some s₁₂ ∧ s₂.change x = some s₂₁ ∧ s₁₂.Alike s₂₁ := by
  cases x with
  | save name script =>
    have henters := enters_of_change h.linked h.ready hx h₁
    cases y with
    | save name' script' =>
      exact henters.comm h hnames hx hy (hdistinct.mono fun _ hdata => Or.inr hdata)
        (enters_of_change h.linked h.ready hy h₂)
    | delete name' =>
      obtain ⟨id, hremoves⟩ := removes_of_change h.lawful h.ready h₂
      refine henters.comm_removes h hnames hx (hdistinct.mono ?_) hremoves
      rintro data (hdata | hdata)
      · exact Or.inl hdata
      · exact Or.inr (Or.inl hdata)
  | delete name =>
    obtain ⟨id, hremoves⟩ := removes_of_change h.lawful h.ready h₁
    cases y with
    | save name' script' =>
      have henters := enters_of_change h.linked h.ready hy h₂
      have hsub : s.occurring script' ⊆ {data | (∃ d, BlobStore.find s.blobs d = some data) ∨
          data ∈ (Change.delete name).cut s.params ∨
          data ∈ (Change.save name' script').cut s.params} := by
        rintro data (hdata | hdata)
        · exact Or.inl hdata
        · exact Or.inr (Or.inr hdata)
      obtain ⟨s₂₁, s₁₂, h₂₁, h₁₂, halike⟩ :=
        henters.comm_removes h hnames.symm hy (hdistinct.mono hsub) hremoves
      exact ⟨s₁₂, s₂₁, h₁₂, h₂₁, halike.symm⟩
    | delete name' =>
      obtain ⟨id', hremoves'⟩ := removes_of_change h.lawful h.ready h₂
      exact hremoves.comm h hnames hremoves'

/-- A member is deleted whose only chunk another member gets. -/
theorem change_comm_threeBytes : ∃ s s₁ s₂ s₁₂ s₂₁ : Store MemoryBlobs,
    change ⟨.empty, .empty, .standard, none⟩ (.save "a" threeBytes) = some s ∧
      s.change (.delete "a") = some s₁ ∧ s.change (.save "b" threeBytes) = some s₂ ∧
      s₁.change (.save "b" threeBytes) = some s₁₂ ∧ s₂.change (.delete "a") = some s₂₁ ∧
      s₁₂.Alike s₂₁ := by
  have hfits : threeBytes.delivered.1.length < 2 ^ 63 := by decide
  obtain ⟨s, hsave, henters⟩ := @exists_enters MemoryBlobs _ _ ⟨.empty, .empty, .standard, none⟩ "a"
    threeBytes Catalog.linked_empty trivial rfl hfits rfl
  have hstored {d : Digest} {data : Bytes} (hfound : BlobStore.find s.blobs d = some data) :
      data = [1, 2, 3] ∧ Digest.of data = d := by
    rw [henters.find, MemoryBlobs.find_empty, Option.none_or, cut_threeBytes] at hfound
    obtain ⟨hmem, hdigest⟩ := partOf_eq_some hfound
    exact ⟨List.mem_singleton.mp hmem, hdigest⟩
  have hcut {data : Bytes} (hdata : data ∈ cut s.params threeBytes) : data = [1, 2, 3] := by
    rw [henters.params, cut_threeBytes, List.mem_singleton] at hdata
    exact hdata
  have hintact : s.Intact :=
    ⟨henters.lawful Catalog.lawful_empty, henters.linked Catalog.linked_empty, henters.ready,
      fun d data hfound => (hstored hfound).2⟩
  have hbound : s.catalog.archiveId? "a" = some 1 := by
    rw [henters.catalog]
    decide
  have hcells (r : ChunkRow) (hr : r ∈ s.catalog.chunkRows 1) : ∃ d : Digest, r.digest = d.cell := by
    rw [Catalog.mem_chunkRows, henters.catalog] at hr
    rcases List.mem_append.mp hr.1 with hrow | hrow
    · obtain ⟨data, -, offset, -, -, rfl⟩ := Catalog.exists_of_mem_layout (List.mem_reverse.mp hrow)
      exact ⟨Digest.of data, rfl⟩
    · cases hrow
  obtain ⟨s₁, h₁, -⟩ := exists_removes hintact.lawful hintact.ready hbound
    (Catalog.exists_archiveDigests hcells)
  have hfree : s.catalog.archiveId? "b" = none :=
    (henters.archiveId?_of_ne (by decide)).trans rfl
  obtain ⟨s₂, h₂, -⟩ := exists_enters hintact.linked hintact.ready hfree hfits rfl
  have hdistinct : Set.InjOn Digest.of {data | (∃ d, BlobStore.find s.blobs d = some data) ∨
      data ∈ (Change.delete "a").cut s.params ∨ data ∈ (Change.save "b" threeBytes).cut s.params} := by
    have hsingle {data : Bytes} (hdata : (∃ d, BlobStore.find s.blobs d = some data) ∨
        data ∈ (Change.delete "a").cut s.params ∨
        data ∈ (Change.save "b" threeBytes).cut s.params) : data = [1, 2, 3] := by
      rcases hdata with ⟨d, hfound⟩ | hnone | hdata
      · exact (hstored hfound).1
      · cases hnone
      · exact hcut hdata
    intro data hdata data' hdata' _
    rw [hsingle hdata, hsingle hdata']
  obtain ⟨s₁₂, s₂₁, h₁₂, h₂₁, halike⟩ :=
    @change_comm MemoryBlobs _ _ s hintact (.delete "a") (.save "b" threeBytes) (by decide) trivial
      hfits hdistinct s₁ s₂ h₁ h₂
  exact ⟨s, s₁, s₂, s₁₂, s₂₁, hsave, h₁, h₂, h₁₂, h₂₁, halike⟩

end Store

end DedupArchive
