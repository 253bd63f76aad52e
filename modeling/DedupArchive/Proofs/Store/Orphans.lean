/-
  DedupArchive/Proofs/Store/Orphans.lean
  ======================================
  **Blobs that no chunk refers to can go.**

  An audit asks in three ways which blobs are in use, and a load in a fourth: by
  the digests that are referred to, by these with their lengths, by the chunks of
  each archive.  All of them read the digests of chunk rows.  So what an audit
  takes for unused is asked for by none: without it every load is what it was, and
  another audit finds what the first one found, but for the blobs that are gone.
-/
import DedupArchive.Proofs.Store.Releasing

namespace DedupArchive

open BlobStore (eraseAll)

/-! ### Digests in memory -/

namespace MemoryBlobs

theorem keys_ascend (m : MemoryBlobs) : m.blobs.keys.Pairwise fun d e => compare d e = .lt :=
  Std.ExtTreeMap.ordered_keys

theorem mem_keys_iff {m : MemoryBlobs} {d : Digest} : d ∈ m.blobs.keys ↔ BlobStore.find m d ≠ none := by
  rw [find_eq, Std.ExtTreeMap.mem_keys, Std.ExtTreeMap.mem_iff_isSome_getElem?, Option.isSome_iff_ne_none]

theorem digests_eraseAll (m : MemoryBlobs) (removed : List Digest) :
    BlobStore.digests (eraseAll m removed).2 = .ok (m.blobs.keys.filter (· ∉ removed)) := by
  refine congrArg Except.ok (eq_of_ascend (keys_ascend _) ((keys_ascend m).filter _) ?_)
  intro d
  rw [List.mem_filter, decide_eq_true_iff, mem_keys_iff, mem_keys_iff]
  have hcontent : BlobStore.find (eraseAll m removed).2 d = BlobStore.find m d ∨
      d ∈ removed ∧ BlobStore.find (eraseAll m removed).2 d = none :=
    BlobStore.content_eraseAll m removed d
  by_cases hd : d ∈ removed
  · have hnone : BlobStore.find (eraseAll m removed).2 d = none :=
      BlobStore.content_eraseAll_of_mem (m.eraseAll_ok removed) hd
    simp [hnone, hd]
  · simp only [hd, false_and, or_false] at hcontent
    simp [hcontent, hd]

end MemoryBlobs

/-! ### Findings about blobs that are not in use -/

namespace Finding

def isOrphan : Finding → Bool
  | .orphanBlob _ => true
  | _ => false

def isOrphanAmong (digests : List Digest) : Finding → Bool
  | .orphanBlob d => d ∈ digests
  | _ => false

variable {f : Finding}

theorem Blames.isOrphan_eq_false {name : String} (h : f.Blames name) : f.isOrphan = false := by
  cases f <;> first | rfl | exact h.elim

theorem isOrphanAmong_eq_false (digests : List Digest) (h : f.isOrphan = false) :
    f.isOrphanAmong digests = false := by
  cases f <;> first | rfl | cases h

end Finding

namespace Store

/-! ### Stores whose blobs in use are the same -/

section Kept

variable {σ : Type} [BlobStore σ] {s : Store σ} {blobs : σ}

/-- Whether other blobs are the same under every digest that a chunk refers to. -/
def KeepsUsed (s : Store σ) (blobs : σ) : Prop :=
  ∀ r ∈ s.catalog.chunks, ∀ d : Digest, r.digest = d.cell →
    BlobStore.get blobs d = BlobStore.get s.blobs d

namespace KeepsUsed

variable (h : s.KeepsUsed blobs)

include h

theorem get_of_chunk {id : Int} {rows : List ChunkRecord} (hrows : s.catalog.chunksOf id = .ok rows)
    {row : ChunkRecord} (hrow : row ∈ rows) :
    BlobStore.get blobs row.digest = BlobStore.get s.blobs row.digest := by
  obtain ⟨r, hr, -, hread⟩ := Catalog.exists_chunkRow hrows hrow
  exact h r hr row.digest (ChunkRow.toRecord_eq_ok_iff.mp hread).1

theorem get_of_reference {refs : List (Digest × Nat)} (hrefs : s.catalog.referenced = .ok refs)
    {ref : Digest × Nat} (href : ref ∈ refs) :
    BlobStore.get blobs ref.1 = BlobStore.get s.blobs ref.1 := by
  obtain ⟨r, hr, hdigest, -⟩ := Catalog.exists_chunk_of_mem_referenced hrefs href
  exact h r hr ref.1 hdigest

theorem load_eq (name : String) (sink : Sink) : Store.load { s with blobs } name sink = s.load name sink := by
  apply load_congr (s := s) (t := { s with blobs }) rfl
  intro a ha
  exact ⟨rfl, fun rows hrows row hrow => h.get_of_chunk hrows hrow⟩

theorem findDamaged_eq : findDamaged { s with blobs } = s.findDamaged := by
  rw [findDamaged, findDamaged]
  cases hrefs : s.catalog.referenced with
  | error e => rfl
  | ok refs =>
    have hchecks : (refs.flatMap fun ref => checkBlob { s with blobs } ref.1 ref.2) =
        refs.flatMap fun ref => s.checkBlob ref.1 ref.2 := by
      apply List.flatMap_congr
      intro ref href
      simp only [checkBlob, h.get_of_reference hrefs href]
    show Except.ok (refs.flatMap fun ref => checkBlob { s with blobs } ref.1 ref.2, _) = Except.ok _
    rw [hchecks]

theorem digestFindings_eq {a : ArchiveRecord} {rows : List ChunkRecord}
    (hrows : s.catalog.chunksOf a.id = .ok rows) :
    digestFindings { s with blobs } a rows = s.digestFindings a rows := by
  have hreassemble : ∀ (some : List ChunkRecord) (whole : Digest.Running), some ⊆ rows →
      reassemble { s with blobs } a.name whole some = s.reassemble a.name whole some := by
    intro some
    induction some with
    | nil => exact fun whole _ => rfl
    | cons row rest ih =>
      intro whole hsub
      obtain ⟨hrow, hrest⟩ := List.cons_subset.mp hsub
      simp only [reassemble, h.get_of_chunk hrows hrow]
      split
      · rfl
      · exact ih _ hrest
  rw [digestFindings, hreassemble rows .start (List.Subset.refl rows), digestFindings]

theorem findMismatched_eq (archives : List ArchiveRecord) :
    findEach { s with blobs } (digestFindings { s with blobs }) archives =
      s.findEach s.digestFindings archives := by
  rw [findEach, findEach]
  congr 2
  funext a
  cases hrows : s.catalog.chunksOf a.id with
  | error e => rfl
  | ok rows => exact congrArg Except.ok (h.digestFindings_eq hrows)

end KeepsUsed

/-! ### What an audit takes for not in use -/

theorem findOrphans_eq {refs : List (Digest × Nat)} (hrefs : s.catalog.referenced = .ok refs)
    {stored : List Digest} (hstored : BlobStore.digests s.blobs = .ok stored) :
    s.findOrphans = .ok ((stored.filter (· ∉ refs.map (·.1))).map .orphanBlob) := by
  rw [findOrphans, hrefs, hstored]
  have hlive (d : Digest) : (!(Std.ExtTreeSet.ofList (refs.map (·.1)) compare).contains d) =
      decide (d ∉ refs.map (·.1)) := by
    rw [Std.ExtTreeSet.contains_ofList, List.contains_eq_mem, decide_not]
  simp only [readCatalog, Except.mapError, bind, Except.bind, hlive]
  rfl

theorem isOrphan_of_mem_checkBlob {d : Digest} {n : Nat} {f : Finding} (hf : f ∈ s.checkBlob d n) :
    f.isOrphan = false := by
  rcases mem_checkBlob_iff.mp hf with ⟨e, -, rfl⟩ | ⟨data, -, ⟨-, rfl⟩ | ⟨-, -, rfl⟩⟩ <;> rfl

section Report

variable {report : AuditReport} (haudit : s.audit = .ok report)

include haudit

/-- Only one step of an audit looks for blobs that are not in use. -/
theorem exists_steps_of_audit :
    ∃ archives unfinished uncovered orphans damaged blobs mismatched mislength,
      s.catalog.completed = .ok archives ∧ s.findUnfinished = .ok unfinished ∧
      s.findEach (fun a rows => coverage a.name 0 rows) archives = .ok uncovered ∧
      s.findOrphans = .ok orphans ∧ s.findDamaged = .ok (damaged, blobs) ∧
      s.findEach s.digestFindings archives = .ok mismatched ∧ s.findMislength = .ok mislength ∧
      report = ⟨unfinished ++ uncovered ++ orphans ++ damaged ++ mismatched ++ mislength,
        archives.length, blobs⟩ ∧
      ∀ f, f ∈ unfinished ∨ f ∈ uncovered ∨ f ∈ damaged ∨ f ∈ mismatched ∨ f ∈ mislength →
        f.isOrphan = false := by
  obtain ⟨archives, unfinished, uncovered, orphans, damaged, blobs, mismatched, mislength, harchives,
    hunfinished, huncovered, horphans, hdamaged, hmismatched, hmislength, heq⟩ :=
    audit_eq_ok_iff.mp haudit
  refine ⟨archives, unfinished, uncovered, orphans, damaged, blobs, mismatched, mislength, harchives,
    hunfinished, huncovered, horphans, hdamaged, hmismatched, hmislength, heq, ?_⟩
  rintro f (hf | hf | hf | hf | hf)
  · obtain ⟨name, rfl⟩ := eq_of_mem_findUnfinished hunfinished hf
    rfl
  · obtain ⟨a, -, rows, -, hf⟩ := (mem_findEach_iff huncovered).mp hf
    exact (blames_of_mem_coverage hf).isOrphan_eq_false
  · obtain ⟨refs, -, ref, -, hf⟩ := (mem_findDamaged_iff hdamaged).mp hf
    exact isOrphan_of_mem_checkBlob hf
  · obtain ⟨a, -, rows, -, hf⟩ := (mem_findEach_iff hmismatched).mp hf
    exact (blames_of_mem_digestFindings hf).isOrphan_eq_false
  · obtain ⟨totals, -, t, -, -, rfl⟩ := (mem_findMislength_iff hmislength).mp hf
    rfl

/-- An audit takes for not in use what is listed and no chunk refers to. -/
theorem mem_orphans_iff {stored : List Digest} (hstored : BlobStore.digests s.blobs = .ok stored)
    {d : Digest} : .orphanBlob d ∈ report.findings ↔
      d ∈ stored ∧ ∀ r ∈ s.catalog.chunks, r.digest ≠ d.cell := by
  constructor
  · intro horphan
    obtain ⟨archives, unfinished, uncovered, orphans, damaged, blobs, mismatched, mislength, -, -, -,
      horphans, -, -, -, rfl, hother⟩ := exists_steps_of_audit haudit
    have hmem : .orphanBlob d ∈ orphans := by
      have hnone := mt (hother (.orphanBlob d)) (by simp [Finding.isOrphan])
      simp only [List.mem_append] at horphan
      tauto
    obtain ⟨refs, stored', hrefs, hstored', d', hd, hunused, heq⟩ := (mem_findOrphans_iff horphans).mp hmem
    cases heq
    cases hstored.symm.trans hstored'
    refine ⟨hd, ?_⟩
    intro r hr hdigest
    obtain ⟨n, hreferred, -⟩ := Catalog.exists_mem_referenced hrefs hr hdigest
    exact hunused n hreferred
  · rintro ⟨hd, hunused⟩
    obtain ⟨refs, stored', hrefs, hstored', hreported⟩ := exists_listed_of_audit haudit
    cases hstored.symm.trans hstored'
    apply hreported d hd
    intro n hn
    obtain ⟨r, hr, hdigest, -⟩ := Catalog.exists_chunk_of_mem_referenced hrefs hn
    exact hunused r hr hdigest

/-- **Another audit.**  Where the blobs in use are the same, it finds the same, but
    for the blobs that are not listed any more. -/
theorem audit_of_keepsUsed (h : s.KeepsUsed blobs) {removed stored : List Digest}
    (hstored : BlobStore.digests s.blobs = .ok stored)
    (hleft : BlobStore.digests blobs = .ok (stored.filter (· ∉ removed))) :
    audit { s with blobs } =
      .ok { report with findings := report.findings.filter (!·.isOrphanAmong removed) } := by
  obtain ⟨archives, unfinished, uncovered, orphans, damaged, count, mismatched, mislength, harchives,
    hunfinished, huncovered, horphans, hdamaged, hmismatched, hmislength, rfl, hother⟩ :=
    exists_steps_of_audit haudit
  have hsame (found : List Finding) (hnone : ∀ f ∈ found, f.isOrphan = false) :
      found.filter (!·.isOrphanAmong removed) = found := by
    rw [List.filter_eq_self]
    intro f hf
    rw [Finding.isOrphanAmong_eq_false removed (hnone f hf), Bool.not_false]
  have horphans' : findOrphans { s with blobs } = .ok (orphans.filter (!·.isOrphanAmong removed)) := by
    obtain ⟨refs, stored', hrefs, hstored'⟩ := exists_listed_of_findOrphans horphans
    cases hstored.symm.trans hstored'
    rw [findOrphans_eq hrefs hstored] at horphans
    cases horphans
    rw [@findOrphans_eq _ _ { s with blobs } _ hrefs _ hleft, List.filter_map, List.filter_filter,
      List.filter_filter]
    congr 2
    apply List.filter_congr
    intro d _
    simp [Finding.isOrphanAmong, Bool.and_comm]
  rw [audit_eq_ok_iff]
  refine ⟨archives, unfinished, uncovered, _, damaged, count, mismatched, mislength, harchives,
    hunfinished, huncovered, horphans', h.findDamaged_eq.trans hdamaged,
    (h.findMismatched_eq archives).trans hmismatched, hmislength, ?_⟩
  simp only [List.filter_append]
  rw [hsame unfinished, hsame uncovered, hsame damaged, hsame mismatched, hsame mislength]
  all_goals
    intro f hf
    apply hother
    simp only [hf, true_or, or_true]

end Report

end Kept

/-! ### Orphans -/

/-- **Blobs that no chunk refers to can go.**  Of any rows and any blobs in memory,
    damaged ones too, erase the blobs that an audit takes for not in use.  Then
    every load gives and writes what it did, and another audit reports what the
    first one did, without these blobs. -/
theorem orphans_removable {s : Store MemoryBlobs} {report : AuditReport} (haudit : s.audit = .ok report)
    {removed : List Digest} (hremoved : ∀ d, d ∈ removed ↔ .orphanBlob d ∈ report.findings) :
    (eraseAll s.blobs removed).1 = .ok () ∧
      (∀ name sink, Store.load { s with blobs := (eraseAll s.blobs removed).2 } name sink =
        s.load name sink) ∧
      Store.audit { s with blobs := (eraseAll s.blobs removed).2 } =
        .ok { report with findings := report.findings.filter (!·.isOrphan) } := by
  have hkeeps : s.KeepsUsed (eraseAll s.blobs removed).2 := by
    intro r hr d hdigest
    apply BlobStore.get_eraseAll
    intro hd
    exact ((mem_orphans_iff haudit rfl).mp ((hremoved d).mp hd)).2 r hr hdigest
  refine ⟨s.blobs.eraseAll_ok removed, hkeeps.load_eq, ?_⟩
  rw [audit_of_keepsUsed haudit hkeeps rfl (s.blobs.digests_eraseAll removed)]
  congr 2
  apply List.filter_congr
  intro f hf
  cases f with
  | orphanBlob d =>
    have hd : d ∈ removed := (hremoved d).mpr hf
    simp [Finding.isOrphanAmong, Finding.isOrphan, hd]
  | _ => rfl

def mislaidBlob : Store MemoryBlobs :=
  { lostBlob with blobs := (MemoryBlobs.empty.put (Digest.of [6]) [7]).2 }

/-- The mislaid blob can go, and is missed as before. -/
theorem orphans_removable_mislaidBlob : ∃ report, mislaidBlob.audit = .ok report ∧
    .orphanBlob (Digest.of [6]) ∈ report.findings ∧
      (∀ name sink, Store.load { mislaidBlob with
          blobs := (eraseAll mislaidBlob.blobs [Digest.of [6]]).2 } name sink =
        mislaidBlob.load name sink) ∧
      Store.audit { mislaidBlob with blobs := (eraseAll mislaidBlob.blobs [Digest.of [6]]).2 } =
        .ok { report with findings := report.findings.filter (!·.isOrphan) } := by
  obtain ⟨before, hbefore⟩ := exists_audit_lostBlob
  obtain ⟨report, haudit⟩ : ∃ report, mislaidBlob.audit = .ok report :=
    exists_audit_of_listed hbefore ⟨_, rfl⟩
  have horphan (d : Digest) : d ∈ [Digest.of [6]] ↔ .orphanBlob d ∈ report.findings := by
    rw [mem_orphans_iff haudit rfl, MemoryBlobs.mem_keys_iff, mislaidBlob, find_put_empty,
      List.mem_singleton]
    constructor
    · rintro rfl
      refine ⟨by simp, ?_⟩
      intro r hr hdigest
      rw [List.mem_singleton.mp hr] at hdigest
      exact digest_flippedBit (Cell.digest_cell_inj.mp hdigest).symm
    · rintro ⟨hfound, -⟩
      by_contra hne
      exact hfound (if_neg (Ne.symm hne))
  obtain ⟨-, hload, hagain⟩ := orphans_removable haudit horphan
  exact ⟨report, haudit, (horphan _).mp (List.mem_singleton_self _), hload, hagain⟩

end Store

end DedupArchive
