/-
  DedupArchive/Proofs/Catalog/Ordering.lean
  =========================================
  **Answers do not show the order of the rows.**

  Every question names an order, and the rules of the tables leave no two rows at
  one place of it: names are unique, and so are offsets within an archive.  Blobs
  that are referred to are sorted by digest and length instead, which no rule makes
  unique.  There pairs that are the same are one pair, unless a cell of a digest
  holds a number: the number twelve has two forms, and it depends on the order of
  the rows which of them is read, and refused.
-/
import DedupArchive.Proofs.Catalog.Reachable
import Mathlib.Data.List.Pairwise

namespace DedupArchive

/-! ### Lists with the same members -/

theorem find?_eq_of_unique {α : Type} {l l' : List α} (hmem : ∀ x, x ∈ l ↔ x ∈ l') {p : α → Bool}
    (hunique : ∀ x ∈ l, ∀ y ∈ l, p x = true → p y = true → x = y) : l.find? p = l'.find? p := by
  cases hfind : l.find? p with
  | none =>
    symm
    rw [List.find?_eq_none] at hfind ⊢
    intro x hx
    exact hfind x ((hmem x).mpr hx)
  | some x =>
    have hx := List.mem_of_find?_eq_some hfind
    have hpx := List.find?_some hfind
    cases hfind' : l'.find? p with
    | none =>
      rw [List.find?_eq_none] at hfind'
      exact absurd hpx (hfind' x ((hmem x).mp hx))
    | some y =>
      have hy := (hmem y).mpr (List.mem_of_find?_eq_some hfind')
      rw [hunique x hx y hy hpx (List.find?_some hfind')]

/-- Sorting forgets the order of a list, if no two members stand at one place. -/
theorem mergeSort_eq_of_perm {α : Type} {le : α → α → Bool}
    (htrans : ∀ a b c, le a b = true → le b c = true → le a c = true)
    (htotal : ∀ a b, (le a b || le b a) = true) {l l' : List α} (hperm : l.Perm l')
    (hanti : ∀ a ∈ l, ∀ b ∈ l, le a b = true → le b a = true → a = b) :
    l.mergeSort le = l'.mergeSort le := by
  refine @List.Perm.eq_of_pairwise α (fun a b => le a b = true) _ _ ?_ ?_ ?_ ?_
  · intro a b ha hb
    rw [List.mem_mergeSort] at ha hb
    exact hanti a ha b (hperm.mem_iff.mpr hb)
  · exact List.pairwise_mergeSort htrans htotal l
  · exact List.pairwise_mergeSort htrans htotal l'
  · exact (List.mergeSort_perm l le).trans (hperm.trans (List.mergeSort_perm l' le).symm)

theorem map_dropRepeats {α : Type} {same : α → α → Bool} {f : α → α}
    (hsame : ∀ x y, same (f x) (f y) = same x y) (kept : α) (l : List α) :
    (dropRepeats same kept l).map f = dropRepeats same (f kept) (l.map f) := by
  induction l generalizing kept with
  | nil => rfl
  | cons x rest ih =>
    simp only [dropRepeats, List.map_cons, hsame]
    split
    · exact ih kept
    · rw [List.map_cons, ih x]

theorem map_firstOfRuns {α : Type} {same : α → α → Bool} {f : α → α}
    (hsame : ∀ x y, same (f x) (f y) = same x y) (l : List α) :
    (firstOfRuns same l).map f = firstOfRuns same (l.map f) := by
  cases l with
  | nil => rfl
  | cons x rest => simp only [firstOfRuns, List.map_cons, map_dropRepeats hsame]

/-- Two answers are the same, or both fail by errors of one kind. -/
def SameOrFail {ε β : Type} (kind : ε → Prop) (answer answer' : Except ε β) : Prop :=
  answer = answer' ∨ ∃ e e', answer = .error e ∧ answer' = .error e' ∧ kind e ∧ kind e'

theorem SameOrFail.refl {ε β : Type} {kind : ε → Prop} (answer : Except ε β) :
    SameOrFail kind answer answer := Or.inl rfl

theorem SameOrFail.bind {ε α β : Type} {kind : ε → Prop} {x x' : Except ε α} {f f' : α → Except ε β}
    (h : SameOrFail kind x x') (hrest : ∀ a, SameOrFail kind (f a) (f' a)) :
    SameOrFail kind (x >>= f) (x' >>= f') := by
  rcases h with rfl | ⟨e, e', rfl, rfl, he, he'⟩
  · cases x with
    | error e => exact SameOrFail.refl _
    | ok a => exact hrest a
  · exact Or.inr ⟨e, e', rfl, rfl, he, he'⟩

/-- If rows that agree in some respect are read alike, so are lists of such rows. -/
theorem mapM_sameOrFail {ε α β γ : Type} {kind : ε → Prop} {f : α → Except ε β} {g : α → γ}
    (hread : ∀ x y, g x = g y → SameOrFail kind (f x) (f y)) {l l' : List α} (h : l.map g = l'.map g) :
    SameOrFail kind (l.mapM f) (l'.mapM f) := by
  induction l generalizing l' with
  | nil =>
    rw [List.map_nil, eq_comm, List.map_eq_nil_iff] at h
    rw [h]
    exact SameOrFail.refl _
  | cons x rest ih =>
    obtain ⟨y, rest', rfl, hy, hrest⟩ := List.map_eq_cons_iff.mp h.symm
    rw [List.mapM_cons, List.mapM_cons]
    apply (hread x y hy.symm).bind
    intro b
    apply (ih hrest.symm).bind
    exact fun _ => SameOrFail.refl _

/-- Cells are a key by which rows are sorted. -/
theorem Cell.mergeSort_eq_of_perm {α : Type} {key : α → Cell} {l l' : List α} (hperm : l.Perm l')
    (hunique : ∀ a ∈ l, ∀ b ∈ l, (key a).same (key b) = true → a = b) :
    (l.mergeSort fun a b => (key a).le (key b)) = l'.mergeSort fun a b => (key a).le (key b) := by
  apply DedupArchive.mergeSort_eq_of_perm
  · exact fun a b c => @Cell.le_trans (key a) (key b) (key c)
  · exact fun a b => Cell.total (key a) (key b)
  · exact hperm
  · intro a ha b hb hab hba
    apply hunique a ha b hb
    rw [Cell.same, hab, hba]
    rfl

/-! ### The two forms of a number -/

namespace Cell

def leveled : Cell → Cell
  | .integer i => .real i
  | c => c

theorem le_leveled (a b : Cell) : a.leveled.le b.leveled = a.le b := by
  cases a <;> cases b <;> simp [le, leveled, rank]

theorem same_leveled (a b : Cell) : a.leveled.same b.leveled = a.same b := by
  simp only [same, le_leveled]

theorem leveled_eq_iff {a b : Cell} : a.leveled = b.leveled ↔ a.same b = true := by
  rw [same_iff]
  cases a <;> cases b <;> simp [leveled, rank, number, letters, payload]

/-- Cells that are the same are equal, or the two forms of one number. -/
theorem eq_or_forms {a b : Cell} (h : a.leveled = b.leveled) : a = b ∨
    ∃ i : Int, a = .integer i ∧ b = .real i ∨ a = .real i ∧ b = .integer i := by
  cases a <;> cases b <;> simp_all [leveled, eq_comm]

end Cell

/-- What an integer column makes of a value is a fraction only if it is no integer,
    or one at the ends. -/
theorem Affinity.apply_integer_ne_real (value : Cell) {i : Int} (hmin : Cell.minInteger < i)
    (hmax : i < Cell.maxInteger) : Affinity.integer.apply value ≠ .real i := by
  have hwhole (q : Rat) : Cell.wholeReal q ≠ .real i := by
    unfold Cell.wholeReal
    split
    · simp
    · rename_i hbroken
      intro heq
      cases heq
      exact hbroken ⟨Rat.den_intCast i, hmin, hmax⟩
  cases value with
  | real q => exact hwhole q
  | text t =>
    simp only [apply]
    split
    · exact hwhole _
    · rename_i hfraction _
      rintro rfl
      exact hfraction _ rfl
    · simp
  | _ => simp [apply]

/-- Whether an error names a form of a number where a digest should be. -/
def CatalogError.NamesNumber (e : CatalogError) : Prop :=
  e = .wrongClass 0 "digest" .integer ∨ e = .wrongClass 0 "digest" .real

/-- Cells that are the same are read as the same digest, or not read at all. -/
theorem Cell.toDigest_sameOrFail {a b : Cell} (h : a.leveled = b.leveled) :
    SameOrFail CatalogError.NamesNumber (a.toDigest 0 "digest") (b.toDigest 0 "digest") := by
  rcases Cell.eq_or_forms h with rfl | ⟨i, ⟨rfl, rfl⟩ | ⟨rfl, rfl⟩⟩
  · exact SameOrFail.refl _
  · exact Or.inr ⟨_, _, rfl, rfl, Or.inl rfl, Or.inr rfl⟩
  · exact Or.inr ⟨_, _, rfl, rfl, Or.inr rfl, Or.inl rfl⟩

/-! ### The order of digests and lengths -/

namespace ChunkRow

theorem blobLE_iff (a b : Cell × Cell) : blobLE a b = true ↔
    a.1.le b.1 = true ∧ (a.1.same b.1 = true → a.2.le b.2 = true) := by
  unfold blobLE
  split
  · rename_i hsame
    have hle := (Bool.and_eq_true _ _ ▸ hsame : a.1.le b.1 = true ∧ b.1.le a.1 = true).1
    simp [hsame, hle]
  · rename_i hsame
    simp [hsame]

theorem blobLE_trans (a b c : Cell × Cell) (hab : blobLE a b = true) (hbc : blobLE b c = true) :
    blobLE a c = true := by
  rw [blobLE_iff] at hab hbc ⊢
  refine ⟨Cell.le_trans hab.1 hbc.1, ?_⟩
  intro hsame
  -- what stands between two cells that are the same is the same
  have hca : c.1.le a.1 = true := (Bool.and_eq_true _ _ ▸ hsame : a.1.le c.1 = true ∧ c.1.le a.1 = true).2
  have hsame_ab : a.1.same b.1 = true := by
    rw [Cell.same, Bool.and_eq_true]
    exact ⟨hab.1, Cell.le_trans hbc.1 hca⟩
  have hsame_bc : b.1.same c.1 = true := by
    rw [Cell.same, Bool.and_eq_true]
    exact ⟨hbc.1, Cell.le_trans hca hab.1⟩
  exact Cell.le_trans (hab.2 hsame_ab) (hbc.2 hsame_bc)

theorem blobLE_total (a b : Cell × Cell) : (blobLE a b || blobLE b a) = true := by
  rw [blobLE, blobLE, Cell.same_comm b.1 a.1]
  split
  · exact Cell.total a.2 b.2
  · exact Cell.total a.1 b.1

theorem same_of_blobLE {a b : Cell × Cell} (hab : blobLE a b = true) (hba : blobLE b a = true) :
    a.1.same b.1 = true ∧ a.2.same b.2 = true := by
  rw [blobLE_iff] at hab hba
  have hsame : a.1.same b.1 = true := by
    rw [Cell.same, Bool.and_eq_true]
    exact ⟨hab.1, hba.1⟩
  refine ⟨hsame, ?_⟩
  rw [Cell.same, Bool.and_eq_true]
  exact ⟨hab.2 hsame, hba.2 (Cell.same_comm _ _ ▸ hsame)⟩

def leveled (pair : Cell × Cell) : Cell × Cell := (pair.1.leveled, pair.2)

theorem blobLE_leveled (a b : Cell × Cell) : blobLE (leveled a) (leveled b) = blobLE a b := by
  simp only [blobLE, leveled, Cell.same_leveled, Cell.le_leveled]

theorem blobSame_leveled (a b : Cell × Cell) : blobSame (leveled a) (leveled b) = blobSame a b := by
  simp only [blobSame, leveled, Cell.same_leveled]

end ChunkRow

namespace Catalog

variable {c c' : Catalog}

/-! ### Rows at one place -/

theorem Lawful.eq_of_same_name (h : c.Lawful) {r r' : ArchiveRow} (hr : r ∈ c.archives)
    (hr' : r' ∈ c.archives) (hsame : r.name.same r'.name = true) : r = r' := by
  by_contra hne
  have : Std.Symm fun r r' : ArchiveRow => r.name.equals r'.name = false :=
    ⟨fun a b hab => (Cell.equals_comm _ _).trans hab⟩
  have happart := h.names.forall hr hr' hne
  rw [Cell.equals, hsame, (ArchiveRow.check_eq_ok_iff.mp (h.archive_rules r hr)).1] at happart
  cases happart

theorem Lawful.eq_of_same_place (h : c.Lawful) {id : Int} {r r' : ChunkRow} (hr : r ∈ c.chunkRows id)
    (hr' : r' ∈ c.chunkRows id) (hsame : r.offset.same r'.offset = true) : r = r' := by
  by_contra hne
  have : Std.Symm fun r r' : ChunkRow => r.offset.equals r'.offset = false :=
    ⟨fun a b hab => (Cell.equals_comm _ _).trans hab⟩
  have happart := (h.offsets_apart id).forall hr hr' hne
  have hrule := ChunkRow.check_eq_ok_iff.mp (h.chunk_rules r (mem_chunkRows.mp hr).1)
  rw [Cell.equals, hsame, hrule.2.2.1] at happart
  cases happart

theorem Lawful.chunks_nodup (h : c.Lawful) : c.chunks.Nodup := by
  apply h.places.imp_of_mem
  rintro r r' hr - hplace rfl
  obtain ⟨harchive, -, hoffset, -⟩ := ChunkRow.check_eq_ok_iff.mp (h.chunk_rules r hr)
  simp [Cell.equals, Cell.same_refl, harchive, hoffset] at hplace

/-! ### Catalogs with the same rows -/

/-- Two catalogs that hold the same rows, written in whatever order. -/
structure SameRows (c c' : Catalog) : Prop where
  lawful : c.Lawful
  lawful' : c'.Lawful
  archives : ∀ r, r ∈ c.archives ↔ r ∈ c'.archives
  chunks : ∀ r, r ∈ c.chunks ↔ r ∈ c'.chunks

namespace SameRows

variable (h : SameRows c c')

include h

theorem archives_perm : c.archives.Perm c'.archives :=
  (List.perm_ext_iff_of_nodup h.lawful.ids_nodup.of_map h.lawful'.ids_nodup.of_map).mpr h.archives

theorem chunks_perm : c.chunks.Perm c'.chunks :=
  (List.perm_ext_iff_of_nodup h.lawful.chunks_nodup h.lawful'.chunks_nodup).mpr h.chunks

/-! ### Archives -/

theorem find_name_eq (name : String) (keep : ArchiveRow → Bool) :
    c.archives.find? (fun r => r.name.equals (.text name) && keep r) =
      c'.archives.find? fun r => r.name.equals (.text name) && keep r := by
  apply find?_eq_of_unique h.archives
  intro r hr r' hr' hmatch hmatch'
  rw [Bool.and_eq_true, Cell.equals_text_iff] at hmatch hmatch'
  exact h.lawful.eq_of_name hr hr' (hmatch.1.trans hmatch'.1.symm)

theorem archive?_eq (name : String) : c.archive? name = c'.archive? name := by
  rw [archive?, h.find_name_eq name ArchiveRow.isComplete, archive?]

theorem archiveId?_eq (name : String) : c.archiveId? name = c'.archiveId? name := by
  have hfind := h.find_name_eq name fun _ => true
  simp only [Bool.and_true] at hfind
  rw [archiveId?, hfind, archiveId?]

theorem byName_eq (keep : ArchiveRow → Bool) :
    ArchiveRow.byName (c.archives.filter keep) = ArchiveRow.byName (c'.archives.filter keep) := by
  apply Cell.mergeSort_eq_of_perm (h.archives_perm.filter keep)
  intro r hr r' hr' hsame
  exact h.lawful.eq_of_same_name (List.mem_filter.mp hr).1 (List.mem_filter.mp hr').1 hsame

theorem completed_eq : c.completed = c'.completed := by
  rw [completed, h.byName_eq, completed]

theorem archiveNames_eq : c.archiveNames = c'.archiveNames := by
  rw [archiveNames, h.byName_eq, archiveNames]

theorem unfinished_eq : c.unfinished = c'.unfinished := by
  rw [unfinished, h.byName_eq, unfinished]

/-! ### Chunks of an archive -/

theorem byOffset_eq (id : Int) : ChunkRow.byOffset (c.chunkRows id) = ChunkRow.byOffset (c'.chunkRows id) := by
  apply Cell.mergeSort_eq_of_perm (h.chunks_perm.filter _)
  intro r hr r' hr' hsame
  exact h.lawful.eq_of_same_place hr hr' hsame

theorem chunksOf_eq (id : Int) : c.chunksOf id = c'.chunksOf id := by
  rw [chunksOf, h.byOffset_eq, chunksOf]

theorem totals_eq : c.totals = c'.totals := by
  have hsum (id : Int) : c.sumOfChunks id = c'.sumOfChunks id := by
    rw [sumOfChunks, h.byOffset_eq, sumOfChunks]
  simp only [totals, h.byName_eq, hsum]

/-! ### Blobs that are referred to -/

theorem isReferenced_eq (d : Digest) : c.isReferenced d = c'.isReferenced d := by
  rw [Bool.eq_iff_iff, isReferenced_iff, isReferenced_iff]
  simp only [h.chunks]

end SameRows

/-- Whether the column of lengths holds no integer of 64 bits as a fraction.  (The
    least one is no length, and the largest is not among the fractions of a table.) -/
def Settled (c : Catalog) : Prop :=
  ∀ r ∈ c.chunks, ∀ i : Int, (Cell.integer i).isWord = true → r.length ≠ .real i

/-- The tables see to it: lengths have gone through an integer column, and the rules
    leave no length below one. -/
theorem Lawful.settled (h : c.Lawful) (hcolumn : ∀ r ∈ c.chunks, ∃ value, r.length = Affinity.integer.apply value)
    (hlargest : ∀ r ∈ c.chunks, r.length ≠ .real Cell.maxInteger) : c.Settled := by
  intro r hr i hword heq
  obtain ⟨value, hvalue⟩ := hcolumn r hr
  have hpos : 0 < i := by
    obtain ⟨-, -, -, -, -, hrule⟩ := ChunkRow.check_eq_ok_iff.mp (h.chunk_rules r hr)
    simpa [heq, Cell.aboveZero, Cell.isNull, Cell.le] using hrule
  have hmin : Cell.minInteger < i := lt_trans (by decide) hpos
  have hmax : i < Cell.maxInteger := by
    apply lt_of_le_of_ne (Int.lt_add_one_iff.mp (Cell.isWord_integer_iff.mp hword).2)
    rintro rfl
    exact hlargest r hr heq
  exact Affinity.apply_integer_ne_real value hmin hmax (hvalue.symm.trans heq)

theorem Settled.eq_of_same (h : c.Settled) (hlawful : c.Lawful) {r r' : ChunkRow} (hr : r ∈ c.chunks)
    (hr' : r' ∈ c.chunks) (hsame : r.length.same r'.length = true) : r.length = r'.length := by
  rw [← Cell.leveled_eq_iff] at hsame
  rcases Cell.eq_or_forms hsame with heq | ⟨i, ⟨hinteger, hreal⟩ | ⟨hreal, hinteger⟩⟩
  · exact heq
  · exact absurd hreal (h r' hr' i (hinteger ▸ (hlawful.chunk_words r hr).2))
  · exact absurd hreal (h r hr i (hinteger ▸ (hlawful.chunk_words r' hr').2))

/-- Whether no two rows hold one number in its two forms as a digest. -/
def OneForm (c : Catalog) : Prop :=
  ∀ r ∈ c.chunks, ∀ r' ∈ c.chunks, r.digest.same r'.digest = true → r.digest = r'.digest

theorem oneForm_of_readable (h : c.Readable) : c.OneForm := by
  intro r _ r' hr' hsame
  obtain ⟨row, hread⟩ := h.chunks r' hr'
  have hdigest := (ChunkRow.toRecord_eq_ok_iff.mp hread).1
  rw [hdigest, Digest.cell, Cell.same_blob_iff] at hsame
  exact hsame.trans hdigest.symm

def blobPairs (c : Catalog) : List (Cell × Cell) :=
  (c.chunks.reverse.map fun r => (r.digest, r.length)).mergeSort ChunkRow.blobLE

namespace SameRows

variable (h : SameRows c c') (hsettled : c.Settled)

include h

/-- What tells apart any two pairs but such as are the same does not show the order. -/
theorem map_blobPairs_eq {f : Cell × Cell → Cell × Cell}
    (hle : ∀ a b, ChunkRow.blobLE (f a) (f b) = ChunkRow.blobLE a b)
    (hsame : ∀ r ∈ c.chunks, ∀ r' ∈ c.chunks, r.digest.same r'.digest = true →
      r.length.same r'.length = true → f (r.digest, r.length) = f (r'.digest, r'.length)) :
    c.blobPairs.map f = c'.blobPairs.map f := by
  unfold blobPairs
  rw [List.map_mergeSort fun a _ b _ => (hle a b).symm, List.map_mergeSort fun a _ b _ => (hle a b).symm]
  apply mergeSort_eq_of_perm ChunkRow.blobLE_trans ChunkRow.blobLE_total
  · exact (((List.reverse_perm _).trans (h.chunks_perm.trans (List.reverse_perm _).symm)).map _).map f
  · intro a ha b hb hab hba
    simp only [List.mem_map, List.mem_reverse] at ha hb
    obtain ⟨_, ⟨r, hr, rfl⟩, rfl⟩ := ha
    obtain ⟨_, ⟨r', hr', rfl⟩, rfl⟩ := hb
    rw [hle] at hab hba
    obtain ⟨hdigest, hlength⟩ := ChunkRow.same_of_blobLE hab hba
    exact hsame r hr r' hr' hdigest hlength

include hsettled

theorem referenced_eq (hform : c.OneForm) : c.referenced = c'.referenced := by
  have hpairs : c.blobPairs = c'.blobPairs := by
    have heq := h.map_blobPairs_eq (f := id) (fun _ _ => rfl) fun r hr r' hr' hdigest hlength =>
      Prod.ext (hform r hr r' hr' hdigest) (hsettled.eq_of_same h.lawful hr hr' hlength)
    rwa [List.map_id, List.map_id] at heq
  unfold blobPairs at hpairs
  rw [referenced, hpairs, referenced]

theorem referenced_sameOrFail : SameOrFail CatalogError.NamesNumber c.referenced c'.referenced := by
  have hpairs : c.blobPairs.map ChunkRow.leveled = c'.blobPairs.map ChunkRow.leveled := by
    apply h.map_blobPairs_eq ChunkRow.blobLE_leveled
    intro r hr r' hr' hdigest hlength
    exact Prod.ext (Cell.leveled_eq_iff.mpr hdigest) (hsettled.eq_of_same h.lawful hr hr' hlength)
  unfold referenced
  apply mapM_sameOrFail (g := ChunkRow.leveled)
  · rintro ⟨digest, length⟩ ⟨digest', length'⟩ heq
    obtain ⟨hdigest, rfl⟩ := Prod.mk.inj heq
    exact (Cell.toDigest_sameOrFail hdigest).bind fun _ => SameOrFail.refl _
  · rw [map_firstOfRuns ChunkRow.blobSame_leveled, map_firstOfRuns ChunkRow.blobSame_leveled]
    exact congrArg _ hpairs

end SameRows

end Catalog

end DedupArchive
