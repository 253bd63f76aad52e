/-
  DedupArchive/Proofs/Store/Findings.lean
  =======================================
  **What the findings of an audit say.**

  An audit looks at a store from six sides, and its report lists what it saw
  without saying what that means.  The findings that bear on one archive are of
  two kinds: those that blame the archive by its name, and those that hit a blob
  which one of its chunks needs.  Here each side is taken by itself: when it is
  answered, and what it then finds.
-/
import DedupArchive.Proofs.Store.Loading

namespace DedupArchive

/-! ### Findings about one archive -/

namespace Finding

/-- Whether a finding says that an archive of this name is not what was recorded. -/
def Blames (name : String) : Finding → Prop
  | .gap n _ _ | .overlap n _ | .archiveHashMismatch n _ _ | .archiveLengthMismatch n _ _
  | .archiveUnreadable n _ _ => n = name
  | _ => False

/-- Whether a finding says that a chunk's blob cannot be had at the chunk's length. -/
def Hits (row : ChunkRecord) : Finding → Prop
  | .unreadableBlob d _ => d = row.digest
  | .wrongSize d expected _ => d = row.digest ∧ expected = row.length
  | _ => False

variable {f : Finding} {name name' : String} {row : ChunkRecord}

theorem Blames.unique (h : f.Blames name) (h' : f.Blames name') : name = name' := by
  cases f <;> first | exact h.symm.trans h' | exact h.elim

theorem Blames.not_hits (h : f.Blames name) : ¬ f.Hits row := by
  cases f <;> first | exact id | exact h.elim

end Finding

namespace Store

variable {σ : Type} [BlobStore σ] {s : Store σ}

theorem readCatalog_eq_ok_iff {α : Type} {answer : Except CatalogError α} {a : α} :
    readCatalog answer = .ok a ↔ answer = .ok a := by
  cases answer <;> simp [readCatalog, Except.mapError]

/-! ### The steps of an audit -/

theorem blames_of_mem_coverage {name : String} {position : Nat} {rows : List ChunkRecord}
    {f : Finding} (h : f ∈ coverage name position rows) : f.Blames name := by
  induction rows generalizing position with
  | nil => cases h
  | cons row rest ih =>
    rw [coverage] at h
    split at h
    · rcases List.mem_cons.mp h with rfl | h
      · rfl
      · exact ih h
    · split at h
      · rcases List.mem_cons.mp h with rfl | h
        · rfl
        · exact ih h
      · exact ih h

theorem eq_of_reassemble_error {name : String} {whole : Digest.Running}
    {rows : List ChunkRecord} {f : Finding} (h : s.reassemble name whole rows = .error f) :
    ∃ d e, f = .archiveUnreadable name d e := by
  induction rows generalizing whole with
  | nil => cases h
  | cons row rest ih =>
    rw [reassemble] at h
    split at h
    · cases h
      exact ⟨_, _, rfl⟩
    · exact ih h

def digestFindings (s : Store σ) (a : ArchiveRecord) (rows : List ChunkRecord) : List Finding :=
  match s.reassemble a.name .start rows with
  | .error finding => [finding]
  | .ok actual =>
    if actual ≠ a.digest then [.archiveHashMismatch a.name a.digest actual] else []

theorem blames_of_mem_digestFindings {a : ArchiveRecord} {rows : List ChunkRecord} {f : Finding}
    (h : f ∈ s.digestFindings a rows) : f.Blames a.name := by
  rw [digestFindings] at h
  split at h
  · rename_i finding herror
    rw [List.mem_singleton] at h
    subst h
    obtain ⟨d, e, rfl⟩ := eq_of_reassemble_error herror
    rfl
  · split at h
    · rw [List.mem_singleton] at h
      subst h
      rfl
    · cases h

theorem digestFindings_eq_nil_iff {a : ArchiveRecord} {rows : List ChunkRecord} :
    s.digestFindings a rows = [] ↔ s.reassemble a.name .start rows = .ok a.digest := by
  rw [digestFindings]
  split
  · rename_i finding herror
    simp only [herror, reduceCtorEq]
  · rename_i actual hok
    rw [hok, Except.ok.injEq]
    by_cases heq : actual = a.digest
    · simp only [heq, ne_eq, not_true_eq_false, if_false]
    · simp only [heq, ne_eq, not_false_eq_true, if_true, reduceCtorEq]

def findEach (s : Store σ) (look : ArchiveRecord → List ChunkRecord → List Finding)
    (archives : List ArchiveRecord) : Except StoreError (List Finding) := do
  let found ← archives.mapM fun a => do
    let rows ← readCatalog (s.catalog.chunksOf a.id)
    return look a rows
  return found.flatten

omit [BlobStore σ] in
theorem findUncovered_eq (s : Store σ) (archives : List ArchiveRecord) :
    s.findUncovered archives = s.findEach (fun a rows => coverage a.name 0 rows) archives := rfl

theorem findMismatched_eq (s : Store σ) (archives : List ArchiveRecord) :
    s.findMismatched archives = s.findEach s.digestFindings archives := by
  rw [findMismatched, findEach]
  congr 1
  congr 1
  funext a
  congr 1
  funext rows
  rw [digestFindings]
  cases s.reassemble a.name .start rows with
  | error finding => rfl
  | ok actual =>
    by_cases hne : actual ≠ a.digest
    · simp only [if_pos hne]
    · simp only [if_neg hne]

section Steps

variable {archives : List ArchiveRecord} {found : List Finding} {f : Finding}
  {look : ArchiveRecord → List ChunkRecord → List Finding}

omit [BlobStore σ] in
theorem mem_findEach_iff (h : s.findEach look archives = .ok found) : f ∈ found ↔
    ∃ a ∈ archives, ∃ rows, s.catalog.chunksOf a.id = .ok rows ∧ f ∈ look a rows := by
  obtain ⟨answers, hanswers, heq⟩ := bind_eq_ok_iff.mp h
  cases heq
  rw [mem_flatten_iff_of_mapM hanswers]
  constructor
  · rintro ⟨a, ha, answer, hanswer, hf⟩
    obtain ⟨rows, hrows, heq⟩ := bind_eq_ok_iff.mp hanswer
    cases heq
    exact ⟨a, ha, rows, readCatalog_eq_ok_iff.mp hrows, hf⟩
  · rintro ⟨a, ha, rows, hrows, hf⟩
    exact ⟨a, ha, _, bind_eq_ok_iff.mpr ⟨rows, readCatalog_eq_ok_iff.mpr hrows, rfl⟩, hf⟩

omit [BlobStore σ] in
/-- All archives are looked at exactly if the rows of each can be read. -/
theorem exists_findEach_iff : (∃ found, s.findEach look archives = .ok found) ↔
    ∀ a ∈ archives, ∃ rows, s.catalog.chunksOf a.id = .ok rows := by
  constructor
  · rintro ⟨found, h⟩ a ha
    obtain ⟨answers, hanswers, -⟩ := bind_eq_ok_iff.mp h
    obtain ⟨answer, -, hanswer⟩ := exists_answer_of_mem hanswers ha
    obtain ⟨rows, hrows, -⟩ := bind_eq_ok_iff.mp hanswer
    exact ⟨rows, readCatalog_eq_ok_iff.mp hrows⟩
  · intro h
    have hanswers : ∃ answers, (archives.mapM fun a => do
        let rows ← readCatalog (s.catalog.chunksOf a.id)
        return look a rows : Except StoreError (List (List Finding))) = .ok answers := by
      refine exists_mapM_ok ?_
      intro a ha
      obtain ⟨rows, hrows⟩ := h a ha
      exact ⟨_, bind_eq_ok_iff.mpr ⟨rows, readCatalog_eq_ok_iff.mpr hrows, rfl⟩⟩
    obtain ⟨answers, hanswers⟩ := hanswers
    exact ⟨_, bind_eq_ok_iff.mpr ⟨answers, hanswers, rfl⟩⟩

omit [BlobStore σ] in
theorem mem_findMislength_iff (h : s.findMislength = .ok found) : f ∈ found ↔
    ∃ totals, s.catalog.totals = .ok totals ∧ ∃ t ∈ totals, t.recorded ≠ t.summed ∧
      f = .archiveLengthMismatch t.name t.recorded t.summed := by
  obtain ⟨totals, htotals, heq⟩ := bind_eq_ok_iff.mp h
  cases heq
  rw [readCatalog_eq_ok_iff] at htotals
  simp only [List.mem_map, List.mem_filter, bne_iff_ne, htotals, Except.ok.injEq, exists_eq_left',
    and_assoc, @eq_comm _ _ f]

theorem mem_findDamaged_iff {blobs : Nat} (h : s.findDamaged = .ok (found, blobs)) : f ∈ found ↔
    ∃ refs, s.catalog.referenced = .ok refs ∧ ∃ ref ∈ refs, f ∈ s.checkBlob ref.1 ref.2 := by
  obtain ⟨refs, hrefs, heq⟩ := bind_eq_ok_iff.mp h
  cases heq
  rw [readCatalog_eq_ok_iff] at hrefs
  simp only [List.mem_flatMap, hrefs, Except.ok.injEq, exists_eq_left']

end Steps

omit [BlobStore σ] in
theorem eq_of_mem_findUnfinished {found : List Finding} (h : s.findUnfinished = .ok found)
    {f : Finding} (hf : f ∈ found) : ∃ name, f = .unfinishedArchive name := by
  obtain ⟨names, -, heq⟩ := bind_eq_ok_iff.mp h
  cases heq
  obtain ⟨name, -, rfl⟩ := List.mem_map.mp hf
  exact ⟨name, rfl⟩

theorem exists_listed_of_findOrphans {found : List Finding} (h : s.findOrphans = .ok found) :
    ∃ refs stored, s.catalog.referenced = .ok refs ∧ BlobStore.digests s.blobs = .ok stored := by
  obtain ⟨refs, hrefs, h⟩ := bind_eq_ok_iff.mp h
  obtain ⟨stored, hstored, -⟩ := bind_eq_ok_iff.mp h
  rw [readCatalog_eq_ok_iff] at hrefs
  cases hanswer : BlobStore.digests s.blobs with
  | error e =>
    rw [hanswer] at hstored
    cases hstored
  | ok answer => exact ⟨refs, answer, hrefs, rfl⟩

theorem mem_findOrphans_iff {found : List Finding} (h : s.findOrphans = .ok found) {f : Finding} :
    f ∈ found ↔ ∃ refs stored, s.catalog.referenced = .ok refs ∧
      BlobStore.digests s.blobs = .ok stored ∧
        ∃ d ∈ stored, (∀ n, (d, n) ∉ refs) ∧ f = .orphanBlob d := by
  obtain ⟨refs, stored, hrefs, hdigests⟩ := exists_listed_of_findOrphans h
  rw [findOrphans, hrefs, hdigests] at h
  cases h
  have hlive (d : Digest) : (Std.ExtTreeSet.ofList (refs.map (·.1)) compare).contains d = false ↔
      ∀ n, (d, n) ∉ refs := by
    rw [Std.ExtTreeSet.contains_ofList, ← Bool.not_eq_true, List.contains_iff_mem, List.mem_map]
    simp
  simp only [List.mem_map, List.mem_filter, Bool.not_eq_true', hlive, hrefs, hdigests,
    Except.ok.injEq, exists_and_left, exists_eq_left', and_assoc, @eq_comm _ _ f]

theorem eq_of_mem_findOrphans {found : List Finding} (h : s.findOrphans = .ok found) {f : Finding}
    (hf : f ∈ found) : ∃ d, f = .orphanBlob d := by
  obtain ⟨refs, stored, -, -, d, -, -, rfl⟩ := (mem_findOrphans_iff h).mp hf
  exact ⟨d, rfl⟩

theorem mem_checkBlob_iff {d : Digest} {n : Nat} {f : Finding} : f ∈ s.checkBlob d n ↔
    (∃ e, BlobStore.get s.blobs d = .error e ∧ f = .unreadableBlob d e.message) ∨
      ∃ data, BlobStore.get s.blobs d = .ok data ∧
        (data.length ≠ n ∧ f = .wrongSize d n data.length ∨
          data.length = n ∧ Digest.of data ≠ d ∧ f = .corruptBlob d (Digest.of data)) := by
  rw [checkBlob]
  cases hget : BlobStore.get s.blobs d with
  | error e => simp
  | ok data =>
    by_cases hlength : data.length = n
    · by_cases hdigest : Digest.of data = d
      · simp [hlength, hdigest]
      · simp [hlength, hdigest]
    · simp [hlength]

/-- Nothing is wrong with a blob that is there, as long as it should be, and what its digest says. -/
theorem checkBlob_eq_nil_iff {d : Digest} {n : Nat} : s.checkBlob d n = [] ↔
    ∃ data, BlobStore.find s.blobs d = some data ∧ data.length = n ∧ Digest.of data = d := by
  simp only [BlobStore.find_eq_some_iff]
  rw [checkBlob]
  cases hget : BlobStore.get s.blobs d with
  | error e => simp
  | ok data =>
    by_cases hlength : data.length = n
    · by_cases hdigest : Digest.of data = d
      · simp [hlength, hdigest]
      · simp [hlength, hdigest]
    · simp [hlength]

/-- What is wrong with a blob hits the chunks that need it at the length that was looked for. -/
theorem exists_hit_of_checkBlob_iff {d : Digest} {n : Nat} {row : ChunkRecord} :
    (∃ f ∈ s.checkBlob d n, f.Hits row) ↔ d = row.digest ∧
      ∀ data, BlobStore.find s.blobs d = some data → data.length ≠ n ∧ n = row.length := by
  constructor
  · rintro ⟨f, hf, hhits⟩
    rcases mem_checkBlob_iff.mp hf with ⟨e, hget, rfl⟩ | ⟨data, hget, ⟨hlength, rfl⟩ | ⟨-, -, rfl⟩⟩
    · refine ⟨hhits, ?_⟩
      intro data hfound
      rw [BlobStore.find_eq_some_iff, hget] at hfound
      cases hfound
    · refine ⟨hhits.1, ?_⟩
      intro data' hfound
      rw [BlobStore.find_eq_some_iff, hget] at hfound
      cases hfound
      exact ⟨hlength, hhits.2⟩
    · exact hhits.elim
  · rintro ⟨hdigest, hdata⟩
    cases hget : BlobStore.get s.blobs d with
    | error e => exact ⟨_, mem_checkBlob_iff.mpr (Or.inl ⟨e, hget, rfl⟩), hdigest⟩
    | ok data =>
      obtain ⟨hlength, hrow⟩ := hdata data (BlobStore.find_eq_some_iff.mpr hget)
      exact ⟨_, mem_checkBlob_iff.mpr (Or.inr ⟨data, hget, Or.inl ⟨hlength, rfl⟩⟩), hdigest, hrow⟩

theorem not_blames_of_mem_checkBlob {d : Digest} {n : Nat} {f : Finding} (hf : f ∈ s.checkBlob d n)
    (name : String) : ¬ f.Blames name := by
  rcases mem_checkBlob_iff.mp hf with ⟨e, -, rfl⟩ | ⟨data, -, ⟨-, rfl⟩ | ⟨-, -, rfl⟩⟩
  · exact id
  · exact id
  · exact id

/-- An audit reports what its steps find, if all of them get to the end. -/
theorem audit_eq_ok_iff {report : AuditReport} : s.audit = .ok report ↔
    ∃ archives unfinished uncovered orphans damaged blobs mismatched mislength,
      s.catalog.completed = .ok archives ∧ s.findUnfinished = .ok unfinished ∧
      s.findEach (fun a rows => coverage a.name 0 rows) archives = .ok uncovered ∧
      s.findOrphans = .ok orphans ∧ s.findDamaged = .ok (damaged, blobs) ∧
      s.findEach s.digestFindings archives = .ok mismatched ∧
      s.findMislength = .ok mislength ∧
      report = ⟨unfinished ++ uncovered ++ orphans ++ damaged ++ mismatched ++ mislength,
        archives.length, blobs⟩ := by
  simp only [audit, bind_eq_ok_iff, readCatalog_eq_ok_iff, findUncovered_eq, findMismatched_eq]
  constructor
  · rintro ⟨archives, h₁, unfinished, h₂, uncovered, h₃, orphans, h₄, ⟨damaged, blobs⟩, h₅,
      mismatched, h₆, mislength, h₇, heq⟩
    cases heq
    exact ⟨_, _, _, _, _, _, _, _, h₁, h₂, h₃, h₄, h₅, h₆, h₇, rfl⟩
  · rintro ⟨archives, unfinished, uncovered, orphans, damaged, blobs, mismatched, mislength,
      h₁, h₂, h₃, h₄, h₅, h₆, h₇, rfl⟩
    exact ⟨_, h₁, _, h₂, _, h₃, _, h₄, (damaged, blobs), h₅, _, h₆, _, h₇, rfl⟩

section Report

variable {report : AuditReport} (haudit : s.audit = .ok report) {f : Finding}

include haudit

/-- A finding is about an unfinished archive, blames an archive, or is about a
    blob that is not in use or about one that is. -/
theorem finding_cases (hf : f ∈ report.findings) : (∃ name, f = .unfinishedArchive name) ∨
    (∃ name, f.Blames name) ∨ (∃ d, f = .orphanBlob d) ∨
      ∃ refs, s.catalog.referenced = .ok refs ∧ ∃ ref ∈ refs, f ∈ s.checkBlob ref.1 ref.2 := by
  obtain ⟨archives, unfinished, uncovered, orphans, damaged, blobs, mismatched, mislength, -,
    hunfinished, huncovered, horphans, hdamaged, hmismatched, hmislength, rfl⟩ :=
    audit_eq_ok_iff.mp haudit
  simp only [List.mem_append] at hf
  rcases hf with ((((hf | hf) | hf) | hf) | hf) | hf
  · exact Or.inl (eq_of_mem_findUnfinished hunfinished hf)
  · obtain ⟨a, -, rows, -, hf⟩ := (mem_findEach_iff huncovered).mp hf
    exact Or.inr (Or.inl ⟨a.name, blames_of_mem_coverage hf⟩)
  · exact Or.inr (Or.inr (Or.inl (eq_of_mem_findOrphans horphans hf)))
  · exact Or.inr (Or.inr (Or.inr ((mem_findDamaged_iff hdamaged).mp hf)))
  · obtain ⟨a, -, rows, -, hf⟩ := (mem_findEach_iff hmismatched).mp hf
    exact Or.inr (Or.inl ⟨a.name, blames_of_mem_digestFindings hf⟩)
  · obtain ⟨totals, -, t, -, -, rfl⟩ := (mem_findMislength_iff hmislength).mp hf
    exact Or.inr (Or.inl ⟨t.name, rfl⟩)

/-- An audit that is answered has looked at every blob that is referred to. -/
theorem exists_referenced_of_audit : ∃ refs, s.catalog.referenced = .ok refs ∧
    ∀ ref ∈ refs, ∀ f ∈ s.checkBlob ref.1 ref.2, f ∈ report.findings := by
  obtain ⟨archives, unfinished, uncovered, orphans, damaged, blobs, mismatched, mislength, -,
    -, -, -, hdamaged, -, -, rfl⟩ := audit_eq_ok_iff.mp haudit
  obtain ⟨refs, hrefs, -⟩ := bind_eq_ok_iff.mp hdamaged
  rw [readCatalog_eq_ok_iff] at hrefs
  refine ⟨refs, hrefs, ?_⟩
  intro ref href f hf
  have hmem : f ∈ damaged := (mem_findDamaged_iff hdamaged).mpr ⟨refs, hrefs, ref, href, hf⟩
  simp only [List.mem_append, hmem, or_true, true_or]

/-- An audit that is answered has listed the blobs, and reports those that are
    not referred to. -/
theorem exists_listed_of_audit : ∃ refs stored, s.catalog.referenced = .ok refs ∧
    BlobStore.digests s.blobs = .ok stored ∧
      ∀ d ∈ stored, (∀ n, (d, n) ∉ refs) → .orphanBlob d ∈ report.findings := by
  obtain ⟨archives, unfinished, uncovered, orphans, damaged, blobs, mismatched, mislength, -,
    -, -, horphans, -, -, -, rfl⟩ := audit_eq_ok_iff.mp haudit
  obtain ⟨refs, stored, hrefs, hstored⟩ := exists_listed_of_findOrphans horphans
  refine ⟨refs, stored, hrefs, hstored, ?_⟩
  intro d hd hnone
  have hmem : Finding.orphanBlob d ∈ orphans :=
    (mem_findOrphans_iff horphans).mpr ⟨refs, stored, hrefs, hstored, d, hd, hnone, rfl⟩
  simp only [List.mem_append, hmem, or_true, true_or]

/-- An audit that is answered is answered whatever becomes of the blobs, as long
    as they can be listed. -/
theorem exists_audit_of_listed {blobs : σ} (hlisted : ∃ stored, BlobStore.digests blobs = .ok stored) :
    ∃ report, audit { s with blobs } = .ok report := by
  obtain ⟨archives, unfinished, uncovered, orphans, damaged, count, mismatched, mislength, harchives,
    hunfinished, huncovered, -, hdamaged, -, hmislength, -⟩ := audit_eq_ok_iff.mp haudit
  obtain ⟨refs, hrefs, -⟩ := bind_eq_ok_iff.mp hdamaged
  obtain ⟨stored, hstored⟩ := hlisted
  have horphans : ∃ found, findOrphans { s with blobs } = .ok found := by
    rw [findOrphans, hrefs, hstored]
    exact ⟨_, rfl⟩
  have hdamaged' : ∃ found, findDamaged { s with blobs } = .ok found := by
    rw [findDamaged, hrefs]
    exact ⟨_, rfl⟩
  obtain ⟨orphans', horphans⟩ := horphans
  have hmismatched : ∃ found,
      findEach { s with blobs } (digestFindings { s with blobs }) archives = .ok found :=
    exists_findEach_iff.mpr (exists_findEach_iff.mp ⟨uncovered, huncovered⟩)
  obtain ⟨⟨damaged', count'⟩, hdamaged'⟩ := hdamaged'
  obtain ⟨mismatched', hmismatched⟩ := hmismatched
  exact ⟨_, audit_eq_ok_iff.mpr ⟨archives, unfinished, uncovered, orphans', damaged', count',
    mismatched', mislength, harchives, hunfinished, huncovered, horphans, hdamaged', hmismatched,
    hmislength, rfl⟩⟩

end Report

/-- If all rows can be read and the blobs can be listed, an audit gets to its last
    step, the lengths of archives, and reports whatever that finds as well. -/
theorem exists_audit_eq (harchives : ∀ r ∈ s.catalog.archives, r.IsReadable)
    (hchunks : ∀ r ∈ s.catalog.chunks, ∃ row, r.toRecord = .ok row)
    (hstored : ∃ stored, BlobStore.digests s.blobs = .ok stored) :
    ∃ report : List Finding → AuditReport, s.audit = s.findMislength.map report := by
  obtain ⟨archives, hcompleted⟩ := Catalog.exists_completed harchives
  obtain ⟨names, hnames⟩ := Catalog.exists_unfinished harchives
  obtain ⟨refs, hrefs⟩ := Catalog.exists_referenced hchunks
  obtain ⟨stored, hstored⟩ := hstored
  have hrows (a : ArchiveRecord) (_ : a ∈ archives) : ∃ rows, s.catalog.chunksOf a.id = .ok rows :=
    Catalog.exists_chunksOf hchunks a.id
  have huncovered : ∃ found, s.findUncovered archives = .ok found := exists_findEach_iff.mpr hrows
  have hmismatched : ∃ found, s.findMismatched archives = .ok found := by
    rw [findMismatched_eq]
    exact exists_findEach_iff.mpr hrows
  have hunfinished : s.findUnfinished = .ok (names.map .unfinishedArchive) := by
    rw [findUnfinished, hnames]
    rfl
  have horphans : ∃ found, s.findOrphans = .ok found := by
    rw [findOrphans, hrefs, hstored]
    exact ⟨_, rfl⟩
  have hdamaged : ∃ found, s.findDamaged = .ok found := by
    rw [findDamaged, hrefs]
    exact ⟨_, rfl⟩
  obtain ⟨uncovered, huncovered⟩ := huncovered
  obtain ⟨orphans, horphans⟩ := horphans
  obtain ⟨⟨damaged, blobs⟩, hdamaged⟩ := hdamaged
  obtain ⟨mismatched, hmismatched⟩ := hmismatched
  refine ⟨fun mislength => ⟨names.map .unfinishedArchive ++ uncovered ++ orphans ++ damaged ++
    mismatched ++ mislength, archives.length, blobs⟩, ?_⟩
  simp only [audit, readCatalog_eq_ok_iff.mpr hcompleted, hunfinished, huncovered, horphans, hdamaged,
    hmismatched, bind, Except.bind]
  cases s.findMislength <;> rfl

/-- An audit gets to the end if moreover no sum of lengths is too large. -/
theorem exists_audit (harchives : ∀ r ∈ s.catalog.archives, r.IsReadable)
    (hchunks : ∀ r ∈ s.catalog.chunks, ∃ row, r.toRecord = .ok row)
    (hsums : ∀ a : ArchiveRecord, a.row ∈ s.catalog.archives → ∀ rows,
      s.catalog.chunksOf a.id = .ok rows → (rows.map (·.length)).sum < 2 ^ 63)
    (hstored : ∃ stored, BlobStore.digests s.blobs = .ok stored) :
    ∃ report, s.audit = .ok report := by
  obtain ⟨report, haudit⟩ := exists_audit_eq harchives hchunks hstored
  obtain ⟨totals, htotals⟩ := Catalog.exists_totals harchives hchunks hsums
  rw [haudit, findMislength, htotals]
  exact ⟨_, rfl⟩

/-- A sum of lengths that is too large keeps an audit from its end. -/
theorem audit_eq_error (harchives : ∀ r ∈ s.catalog.archives, r.IsReadable)
    (hchunks : ∀ r ∈ s.catalog.chunks, ∃ row, r.toRecord = .ok row)
    (hstored : ∃ stored, BlobStore.digests s.blobs = .ok stored) {a : ArchiveRecord}
    (ha : a.row ∈ s.catalog.archives) {rows : List ChunkRecord}
    (hrows : s.catalog.chunksOf a.id = .ok rows) (hsum : 2 ^ 63 ≤ (rows.map (·.length)).sum) :
    s.audit = .error (.catalog .sumOverflow) := by
  obtain ⟨report, haudit⟩ := exists_audit_eq harchives hchunks hstored
  rw [haudit, findMislength, Catalog.totals_eq_error hchunks ha hrows hsum]
  rfl

end Store

end DedupArchive
