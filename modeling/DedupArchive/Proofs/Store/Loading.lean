/-
  DedupArchive/Proofs/Store/Loading.lean
  ======================================
  **When an archive can be loaded.**

  Loading walks along the rows of an archive with a count of the bytes written.
  It gets to the end exactly when the rows tile a byte string, and has then
  written that byte string; the record is checked against it last.  A sink that
  takes everything takes no part in this, however it splits its writes.
-/
import DedupArchive.Proofs.Store.Tiling

namespace DedupArchive

/-! ### Sinks that take everything -/

namespace Sink

/-- A sink that takes everything in the end, perhaps in parts and perhaps with
    interruptions. -/
structure TakesAll (s : Sink) : Prop where
  capacity : s.capacity = none
  maxWrite : s.maxWrite ≠ some 0
  flush : s.flushFails = false

theorem takesAll_unlimited : unlimited.TakesAll := ⟨rfl, nofun, rfl⟩

variable {s : Sink}

/-- A write that is not interrupted takes something. -/
theorem TakesAll.write (h : s.TakesAll) {data : Bytes} (hdata : data ≠ [])
    (hnow : (s.interrupts && !s.interrupted) = false) : ∃ n s', s.write data = (.ok (n + 1), s') ∧
      s'.TakesAll ∧ s'.contents = s.contents ++ data.take (n + 1) := by
  have hpositive : 0 < data.length := List.length_pos_iff.mpr hdata
  have hroom : 0 < s.room data.length := by
    have hmax := h.maxWrite
    rw [room, h.capacity, Option.elim_none]
    cases hlimit : s.maxWrite with
    | none =>
      rw [Option.getD_none]
      omega
    | some limit =>
      rw [hlimit, ne_eq, Option.some.injEq] at hmax
      rw [Option.getD_some]
      omega
  obtain ⟨n, hn⟩ := Nat.exists_eq_succ_of_ne_zero (Nat.ne_of_gt hroom)
  have hfull : isFull { s with interrupted := false } = false := by
    rw [isFull, h.capacity]
    rfl
  have hsize : room { s with interrupted := false } data.length = n + 1 := hn
  refine ⟨n, { s with
    writes := data.take (n + 1) :: s.writes, size := s.size + (n + 1), interrupted := false },
    ?_, ⟨h.capacity, h.maxWrite, h.flush⟩, ?_⟩
  · rw [Sink.write, hnow]
    simp only [Bool.false_eq_true, if_false, hfull, hsize]
  · simp only [contents, List.reverse_cons, List.flatten_append, List.flatten_singleton]

/-- Two writes a byte suffice, and one less when the next is not interrupted. -/
theorem TakesAll.writeAllWithin (h : s.TakesAll) {patience : Nat} {data : Bytes}
    (hpatience : 2 * data.length ≤
      patience + if s.interrupts && !s.interrupted then 0 else 1) :
    ∃ s', s.writeAllWithin patience data = (.ok (), s') ∧ s'.TakesAll ∧
      s'.contents = s.contents ++ data := by
  induction patience generalizing s data with
  | zero =>
    cases data with
    | nil => exact ⟨s, rfl, h, (List.append_nil _).symm⟩
    | cons b rest =>
      rw [List.length_cons] at hpatience
      split at hpatience <;> omega
  | succ patience ih =>
    cases data with
    | nil => exact ⟨s, rfl, h, (List.append_nil _).symm⟩
    | cons b rest =>
      cases hnow : s.interrupts && !s.interrupted with
      | true =>
        rw [hnow, if_pos rfl] at hpatience
        have hstep : s.writeAllWithin (patience + 1) (b :: rest) =
            writeAllWithin patience { s with interrupted := true } (b :: rest) := by
          simp only [Sink.writeAllWithin, Sink.write, hnow, if_true]
        rw [hstep]
        refine @ih { s with interrupted := true } ⟨h.capacity, h.maxWrite, h.flush⟩ _ ?_
        simp only [Bool.not_true, Bool.and_false, Bool.false_eq_true, if_false]
        omega
      | false =>
        rw [hnow] at hpatience
        obtain ⟨n, s', hwrite, hs', hcontents⟩ := h.write (List.cons_ne_nil b rest) hnow
        have hstep : s.writeAllWithin (patience + 1) (b :: rest) =
            s'.writeAllWithin patience ((b :: rest).drop (n + 1)) := by
          simp only [Sink.writeAllWithin, hwrite]
        rw [hstep]
        have hrest : 2 * ((b :: rest).drop (n + 1)).length ≤
            patience + if s'.interrupts && !s'.interrupted then 0 else 1 := by
          rw [List.length_drop]
          simp only [Bool.false_eq_true, if_false] at hpatience
          split <;> omega
        obtain ⟨s'', hwrites, hs'', hcontents'⟩ := ih hs' hrest
        refine ⟨s'', hwrites, hs'', ?_⟩
        rw [hcontents', hcontents, List.append_assoc, List.take_append_drop]

theorem TakesAll.writeAll (h : s.TakesAll) (data : Bytes) : ∃ s', s.writeAll data = (.ok (), s') ∧
    s'.TakesAll ∧ s'.contents = s.contents ++ data :=
  h.writeAllWithin (Nat.le_add_right _ _)

end Sink

/-! ### Walking along the rows -/

namespace Store

variable {σ : Type} [BlobStore σ] {s : Store σ} {name : String} {rows : List ChunkRecord}

/-- Rows that tile a byte string are written out to the end. -/
theorem Loading.addAll_of_tiles {l : Loading} {content : Bytes} (hsink : l.sink.TakesAll)
    (h : Tiles (BlobStore.find s.blobs) l.whole.length rows content) : ∃ sink,
      l.addAll s name rows = (.ok (), ⟨sink, l.whole.feed content⟩) ∧ sink.TakesAll ∧
        sink.contents = l.sink.contents ++ content := by
  induction rows generalizing l content with
  | nil =>
    cases h
    exact ⟨l.sink, rfl, hsink, (List.append_nil _).symm⟩
  | cons row rest ih =>
    cases h with
    | @cons _ _ _ data content hoffset hfound hlength hrest =>
      obtain ⟨sink, hwrite, hsink', hcontents⟩ := hsink.writeAll data
      have hadd : l.add s name row = (.ok (), ⟨sink, l.whole.feed data⟩) := by
        rw [Loading.add, if_neg (not_not_intro hoffset), BlobStore.find_eq_some_iff.mp hfound]
        simp only [if_neg (not_not_intro hlength), hwrite]
      rw [Loading.addAll, hadd]
      obtain ⟨sink', hwrites, hsink'', hcontents'⟩ :=
        ih (l := ⟨sink, l.whole.feed data⟩) hsink' hrest
      refine ⟨sink', ?_, hsink'', ?_⟩
      · rw [Digest.Running.feed_append]
        exact hwrites
      · rw [hcontents', hcontents, List.append_assoc]

/-- Rows that are written out to the end tile a byte string. -/
theorem Loading.tiles_of_addAll {l l' : Loading} (h : l.addAll s name rows = (.ok (), l')) :
    ∃ content, Tiles (BlobStore.find s.blobs) l.whole.length rows content ∧
      l'.whole = l.whole.feed content := by
  induction rows generalizing l with
  | nil =>
    cases h
    exact ⟨[], .nil _, rfl⟩
  | cons row rest ih =>
    rw [Loading.addAll] at h
    split at h
    · cases h
    · rename_i l₁ hadd
      obtain ⟨content, hrest, hwhole⟩ := ih h
      rw [Loading.add] at hadd
      split at hadd
      · cases hadd
      · rename_i hoffset
        cases hget : BlobStore.get s.blobs row.digest with
        | error e =>
          rw [hget] at hadd
          cases hadd
        | ok data =>
          rw [hget] at hadd
          simp only at hadd
          split at hadd
          · cases hadd
          · rename_i hlength
            split at hadd
            · cases hadd
            · cases hadd
              refine ⟨data ++ content, .cons (not_not.mp hoffset)
                (BlobStore.find_eq_some_iff.mpr hget) (not_not.mp hlength) hrest, ?_⟩
              rw [hwhole, Digest.Running.feed_append]

/-! ### Loading a whole archive -/

variable {a : ArchiveRecord} {sink : Sink}

theorem Loading.verify_eq_ok_iff {l : Loading} {record : ArchiveRecord} :
    l.verify a = .ok record ↔
      record = a ∧ l.whole.digest = a.digest ∧ l.whole.length = a.length := by
  rw [Loading.verify]
  split
  · rename_i hdigest
    constructor
    · intro h
      cases h
    · rintro ⟨-, heq, -⟩
      exact absurd heq hdigest
  · rename_i hdigest
    split
    · rename_i hlength
      constructor
      · intro h
        cases h
      · rintro ⟨-, -, heq⟩
        exact absurd heq hlength
    · rename_i hlength
      constructor
      · intro h
        cases h
        exact ⟨rfl, not_not.mp hdigest, not_not.mp hlength⟩
      · rintro ⟨rfl, -, -⟩
        rfl

theorem length_start_feed (content : Bytes) :
    (Digest.Running.start.feed content).length = content.length := Nat.zero_add _

omit [BlobStore σ] in
theorem info_of_mem (hlawful : s.catalog.Lawful) (ha : a.row ∈ s.catalog.archives) :
    s.info a.name = .ok a := by
  rw [info, Catalog.archive?_of_mem hlawful ha]

/-- An archive that is held is written out whole. -/
theorem load_of_holds (hinfo : s.info a.name = .ok a) {content : Bytes}
    (h : s.catalog.Holds (BlobStore.find s.blobs) a content) (hsink : sink.TakesAll) :
    ∃ sink', s.load a.name sink = (.ok a, sink') ∧ sink'.contents = sink.contents ++ content := by
  obtain ⟨rows, hrows, htiles⟩ := h.tiled
  obtain ⟨sink', hadd, hsink', hcontents⟩ :=
    @Loading.addAll_of_tiles σ _ s a.name rows ⟨sink, .start⟩ content hsink htiles
  have hverify : (⟨sink', Digest.Running.start.feed content⟩ : Loading).verify a = .ok a :=
    Loading.verify_eq_ok_iff.mpr ⟨rfl, h.digest, (length_start_feed content).trans h.length⟩
  refine ⟨sink', ?_, hcontents⟩
  rw [load, hinfo]
  simp only [hrows, hadd, Sink.flush, hsink'.flush, Bool.false_eq_true, if_false, hverify]

/-- Only an archive that is held can be loaded. -/
theorem holds_of_load (hinfo : s.info a.name = .ok a) {record : ArchiveRecord}
    (h : (s.load a.name sink).1 = .ok record) :
    ∃ content, s.catalog.Holds (BlobStore.find s.blobs) a content := by
  rw [load, hinfo] at h
  simp only at h
  split at h
  · cases h
  · rename_i rows hrows
    split at h
    · cases h
    · rename_i l hadd
      obtain ⟨content, htiles, hwhole⟩ := Loading.tiles_of_addAll hadd
      split at h
      · cases h
      · obtain ⟨-, hdigest, hlength⟩ := Loading.verify_eq_ok_iff.mp h
        rw [hwhole] at hdigest hlength
        exact ⟨content, ⟨rows, hrows, htiles⟩, hdigest, (length_start_feed content).symm.trans hlength⟩

end Store

end DedupArchive
