/-
  DedupArchive/Proofs/Store/Faults.lean
  =====================================
  **What a load says and what it has written.**

  Loading looks at the rows of a member in order, at each row from three sides.
  The first row at which something is wrong decides what it says, and what it has
  written by then are the blobs of the rows before.  If nothing is wrong with any
  row it has written the whole, and says whether that is what was recorded.

  So for a sink that takes everything there is nothing to a load but its rows and
  blobs.  This holds of every catalog and every blob store, damaged or not.
-/
import DedupArchive.Proofs.Store.Damage

namespace DedupArchive

namespace Store

variable {σ : Type} [BlobStore σ] {s : Store σ}

/-! ### What can be wrong -/

/-- What is wrong with a row that so many bytes precede: its place, then its blob,
    then its length. -/
inductive RowFault (s : Store σ) (name : String) (position : Nat) (row : ChunkRecord) : StoreError → Prop
  | place : row.offset ≠ position →
    RowFault s name position row (.integrity (.discontinuity name position row.offset))
  | blob {e : BlobError} : row.offset = position → BlobStore.get s.blobs row.digest = .error e →
    RowFault s name position row (.blob e)
  | length {data : Bytes} : row.offset = position → BlobStore.get s.blobs row.digest = .ok data →
    data.length ≠ row.length →
    RowFault s name position row (.integrity (.chunkLength name row.digest row.length data.length))

/-- What is said of a member with these rows, and which bytes are written. -/
inductive Verdict (s : Store σ) (a : ArchiveRecord) (rows : List ChunkRecord) :
    Except StoreError ArchiveRecord → Bytes → Prop
  | intact {content : Bytes} : Tiles (BlobStore.find s.blobs) 0 rows content →
    Digest.of content = a.digest → content.length = a.length → Verdict s a rows (.ok a) content
  | row {before after : List ChunkRecord} {row : ChunkRecord} {content : Bytes} {e : StoreError} :
    rows = before ++ row :: after → Tiles (BlobStore.find s.blobs) 0 before content →
    RowFault s a.name content.length row e → Verdict s a rows (.error e) content
  | digest {content : Bytes} : Tiles (BlobStore.find s.blobs) 0 rows content →
    Digest.of content ≠ a.digest →
    Verdict s a rows (.error (.integrity (.archiveDigest a.name a.digest (Digest.of content)))) content
  | length {content : Bytes} : Tiles (BlobStore.find s.blobs) 0 rows content →
    Digest.of content = a.digest → content.length ≠ a.length →
    Verdict s a rows (.error (.integrity (.archiveLength a.name a.length content.length))) content

/-! ### One row -/

section Row

variable {name : String} {position : Nat} {row : ChunkRecord}

/-- A row either has a fault or a blob that fits. -/
theorem fault_or_fits (s : Store σ) (name : String) (position : Nat) (row : ChunkRecord) :
    (∃ e, RowFault s name position row e) ∨ row.offset = position ∧
      ∃ data, BlobStore.find s.blobs row.digest = some data ∧ data.length = row.length := by
  by_cases hoffset : row.offset = position
  · cases hget : BlobStore.get s.blobs row.digest with
    | error e => exact Or.inl ⟨_, .blob hoffset hget⟩
    | ok data =>
      by_cases hlength : data.length = row.length
      · exact Or.inr ⟨hoffset, data, BlobStore.find_eq_some_iff.mpr hget, hlength⟩
      · exact Or.inl ⟨_, .length hoffset hget hlength⟩
  · exact Or.inl ⟨_, .place hoffset⟩

theorem Loading.add_of_fault {l : Loading} {e : StoreError} (h : RowFault s name l.whole.length row e) :
    l.add s name row = (.error e, l) := by
  cases h with
  | place hoffset => rw [Loading.add, if_pos hoffset]
  | blob hoffset hget => rw [Loading.add, if_neg (not_not_intro hoffset), hget]
  | length hoffset hget hlength =>
    rw [Loading.add, if_neg (not_not_intro hoffset), hget]
    simp only [if_pos hlength]

end Row

/-! ### All rows -/

section Rows

variable {name : String} {rows : List ChunkRecord}

theorem Loading.addAll_append {l l' : Loading} {before : List ChunkRecord} (after : List ChunkRecord)
    (h : l.addAll s name before = (.ok (), l')) :
    l.addAll s name (before ++ after) = l'.addAll s name after := by
  induction before generalizing l with
  | nil =>
    cases h
    rfl
  | cons row rest ih =>
    rw [Loading.addAll] at h
    rw [List.cons_append, Loading.addAll]
    split at h
    · cases h
    · exact ih h

/-- Rows tile something, or there is a first one that has a fault. -/
theorem tiles_or_fault (s : Store σ) (name : String) (position : Nat) (rows : List ChunkRecord) :
    (∃ content, Tiles (BlobStore.find s.blobs) position rows content) ∨
    ∃ before row after content e, rows = before ++ row :: after ∧
      Tiles (BlobStore.find s.blobs) position before content ∧
      RowFault s name (position + content.length) row e := by
  induction rows generalizing position with
  | nil => exact Or.inl ⟨[], .nil position⟩
  | cons row rest ih =>
    rcases fault_or_fits s name position row with ⟨e, hfault⟩ | ⟨hoffset, data, hfound, hlength⟩
    · exact Or.inr ⟨[], row, rest, [], e, rfl, .nil position, hfault⟩
    -- the rest is looked at from the place where this blob ends
    · rcases ih (position + data.length) with ⟨content, htiles⟩ |
        ⟨before, faulty, after, content, e, rfl, htiles, hfault⟩
      · exact Or.inl ⟨data ++ content, .cons hoffset hfound hlength htiles⟩
      · right
        refine ⟨row :: before, faulty, after, data ++ content, e, rfl,
          .cons hoffset hfound hlength htiles, ?_⟩
        rw [List.length_append, ← Nat.add_assoc]
        exact hfault

end Rows

/-! ### A whole member -/

variable {a : ArchiveRecord} {rows : List ChunkRecord}

theorem exists_verdict (s : Store σ) (a : ArchiveRecord) (rows : List ChunkRecord) :
    ∃ result content, Verdict s a rows result content := by
  rcases tiles_or_fault s a.name 0 rows with ⟨content, htiles⟩ |
    ⟨before, row, after, content, e, hrows, htiles, hfault⟩
  · by_cases hdigest : Digest.of content = a.digest
    · by_cases hlength : content.length = a.length
      · exact ⟨_, content, .intact htiles hdigest hlength⟩
      · exact ⟨_, content, .length htiles hdigest hlength⟩
    · exact ⟨_, content, .digest htiles hdigest⟩
  · rw [Nat.zero_add] at hfault
    exact ⟨_, content, .row hrows htiles hfault⟩

theorem Verdict.ok_iff {record : ArchiveRecord} {content : Bytes} :
    Verdict s a rows (.ok record) content ↔ record = a ∧ Tiles (BlobStore.find s.blobs) 0 rows content ∧
      Digest.of content = a.digest ∧ content.length = a.length := by
  constructor
  · intro h
    cases h with
    | intact htiles hdigest hlength => exact ⟨rfl, htiles, hdigest, hlength⟩
  · rintro ⟨rfl, htiles, hdigest, hlength⟩
    exact .intact htiles hdigest hlength

section Load

variable {name : String} (harchive : s.catalog.archive? name = .ok (some a))
  (hrows : s.catalog.chunksOf a.id = .ok rows) {sink : Sink} (hsink : sink.TakesAll)

include harchive hrows hsink

theorem load_of_tiles {content : Bytes} (htiles : Tiles (BlobStore.find s.blobs) 0 rows content) :
    ∃ sink', sink'.contents = sink.contents ++ content ∧
      s.load name sink = (Loading.verify ⟨sink', Digest.Running.start.feed content⟩ a, sink') := by
  obtain ⟨sink', hadd, hsink', hcontents⟩ :=
    @Loading.addAll_of_tiles σ _ s a.name rows ⟨sink, .start⟩ content hsink htiles
  refine ⟨sink', hcontents, ?_⟩
  have hinfo : s.info name = .ok a := by rw [info, harchive]
  simp only [load, hinfo, hrows, hadd, Sink.flush, hsink'.flush, Bool.false_eq_true, if_false]

theorem Verdict.load_eq {result : Except StoreError ArchiveRecord} {content : Bytes}
    (h : Verdict s a rows result content) :
    (s.load name sink).1 = result ∧ (s.load name sink).2.contents = sink.contents ++ content := by
  have hwhole (content : Bytes) : (Digest.Running.start.feed content).length = content.length :=
    length_start_feed content
  cases h with
  | intact htiles hdigest hlength =>
    obtain ⟨sink', hcontents, hload⟩ := load_of_tiles harchive hrows hsink htiles
    rw [hload]
    refine ⟨Loading.verify_eq_ok_iff.mpr ⟨rfl, hdigest, ?_⟩, hcontents⟩
    exact (hwhole content).trans hlength
  | digest htiles hdigest =>
    obtain ⟨sink', hcontents, hload⟩ := load_of_tiles harchive hrows hsink htiles
    rw [hload]
    exact ⟨if_pos hdigest, hcontents⟩
  | length htiles hdigest hlength =>
    obtain ⟨sink', hcontents, hload⟩ := load_of_tiles harchive hrows hsink htiles
    rw [hload, ← hwhole content]
    rw [← hwhole content] at hlength
    exact ⟨(if_neg (not_not_intro hdigest)).trans (if_pos hlength), hcontents⟩
  | @row before after row content e hsplit htiles hfault =>
    obtain ⟨sink', hadd, -, hcontents⟩ :=
      @Loading.addAll_of_tiles σ _ s a.name before ⟨sink, .start⟩ content hsink htiles
    rw [← hwhole content] at hfault
    have hstop : Loading.addAll ⟨sink, .start⟩ s a.name rows =
        (.error e, ⟨sink', Digest.Running.start.feed content⟩) := by
      have hrow : Loading.add ⟨sink', Digest.Running.start.feed content⟩ s a.name row =
          (.error e, ⟨sink', Digest.Running.start.feed content⟩) := Loading.add_of_fault hfault
      rw [hsplit, Loading.addAll_append _ hadd, Loading.addAll, hrow]
    have hinfo : s.info name = .ok a := by rw [info, harchive]
    have hload : s.load name sink = (.error e, sink') := by
      simp only [load, hinfo, hrows, hstop]
    rw [hload]
    exact ⟨rfl, hcontents⟩

/-- **Loading.**  The rows are looked at in the order of their places.  A load says
    what there is to say of them and has written the bytes that go with it, and there
    is nothing else that could be said.  It returns the record exactly if the rows
    tile bytes of the recorded digest and length, and has then written these. -/
theorem load_says_verdict :
    a.name = name ∧ rows.Pairwise (fun r r' => r.offset ≤ r'.offset) ∧
      (∃ content, Verdict s a rows (s.load name sink).1 content ∧
        (s.load name sink).2.contents = sink.contents ++ content) ∧
      (∀ result content, Verdict s a rows result content →
        (s.load name sink).1 = result ∧ (s.load name sink).2.contents = sink.contents ++ content) ∧
      ∀ record, (s.load name sink).1 = .ok record ↔ record = a ∧ ∃ content,
        Tiles (BlobStore.find s.blobs) 0 rows content ∧ Digest.of content = a.digest ∧
          content.length = a.length ∧ (s.load name sink).2.contents = sink.contents ++ content := by
  obtain ⟨result, content, hverdict⟩ := exists_verdict s a rows
  obtain ⟨hresult, hcontents⟩ := hverdict.load_eq harchive hrows hsink
  refine ⟨(Catalog.mem_of_archive? harchive).2, Catalog.chunksOf_sorted hrows, ⟨content, ?_, hcontents⟩, ?_, ?_⟩
  · rw [hresult]
    exact hverdict
  · intro result' content' hverdict'
    exact hverdict'.load_eq harchive hrows hsink
  · intro record
    constructor
    · intro hok
      rw [← hresult, hok, Verdict.ok_iff] at hverdict
      obtain ⟨rfl, htiles, hdigest, hlength⟩ := hverdict
      exact ⟨rfl, content, htiles, hdigest, hlength, hcontents⟩
    · rintro ⟨rfl, content', htiles, hdigest, hlength, -⟩
      exact ((Verdict.intact htiles hdigest hlength).load_eq harchive hrows hsink).1

end Load

/-- A blob with one bit flipped is written out before anything is said of it. -/
theorem load_says_verdict_flippedBit : ∃ sink,
    (oneBlob [6]).load "a" .unlimited =
      (.error (.integrity (.archiveDigest "a" (Digest.of [7]) (Digest.of [6]))), sink) ∧ sink.contents = [6] := by
  have harchive : (oneBlob [6]).catalog.archive? "a" = .ok (some ⟨1, "a", 1, Digest.of [7]⟩) :=
    Catalog.archive?_of_mem lawful_lostBlob (a := ⟨1, "a", 1, Digest.of [7]⟩) List.mem_cons_self
  obtain ⟨-, -, -, hsays, -⟩ :=
    load_says_verdict harchive chunksOf_lostBlob Sink.takesAll_unlimited
  obtain ⟨hresult, hcontents⟩ := hsays _ _ (.digest (tiles_oneBlob 6) digest_flippedBit)
  exact ⟨_, Prod.ext hresult rfl, hcontents⟩

end Store

end DedupArchive
