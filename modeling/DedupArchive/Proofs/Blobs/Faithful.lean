/-
  DedupArchive/Proofs/Blobs/Faithful.lean
  =======================================
  **Blob stores that keep what they are given.**

  All that later proofs know of a blob store is which bytes it has under which
  digest.  A faithful blob store is one whose operations do not fail and change
  that as they should, as long as it is ready; what makes it ready is its own
  affair.  Blobs in memory always are.
-/
import DedupArchive.Blobs.Memory
import Mathlib.Data.Option.Basic

namespace DedupArchive

/-- The bytes of a blob, if they can be read. -/
def BlobStore.find {σ : Type} [BlobStore σ] (blobs : σ) (d : Digest) : Option Bytes :=
  (BlobStore.get blobs d).toOption

theorem BlobStore.find_eq_some_iff {σ : Type} [BlobStore σ] {blobs : σ} {d : Digest} {data : Bytes} :
    BlobStore.find blobs d = some data ↔ BlobStore.get blobs d = .ok data := by
  rw [BlobStore.find]
  cases BlobStore.get blobs d <;> simp [Except.toOption]

/-- A blob store that, when it is ready, does not fail and keeps what it is given. -/
class FaithfulBlobs (σ : Type) [BlobStore σ] where
  Ready : σ → Prop
  put_spec : ∀ {blobs : σ} (d : Digest) (data : Bytes), Ready blobs → ∃ new blobs',
    BlobStore.put blobs d data = (.ok new, blobs') ∧ Ready blobs' ∧
      ∀ e, BlobStore.find blobs' e = (BlobStore.find blobs e).or (if d = e then some data else none)
  erase_spec : ∀ {blobs : σ} (d : Digest), Ready blobs → ∃ blobs',
    BlobStore.erase blobs d = (.ok (), blobs') ∧ Ready blobs' ∧
      ∀ e, BlobStore.find blobs' e = if d = e then none else BlobStore.find blobs e
  digests_spec : ∀ {blobs : σ}, Ready blobs → ∃ stored, BlobStore.digests blobs = .ok stored ∧
    ∀ d, d ∈ stored ↔ (BlobStore.find blobs d).isSome = true

/-! ### In memory -/

namespace MemoryBlobs

theorem find_eq (m : MemoryBlobs) (d : Digest) : BlobStore.find m d = m.blobs[d]? := by
  show (m.get d).toOption = m.blobs[d]?
  rw [get, get?]
  cases m.blobs[d]? <;> rfl

theorem find_empty (d : Digest) : BlobStore.find empty d = none := by
  rw [find_eq]
  exact Std.ExtTreeMap.getElem?_empty

instance : FaithfulBlobs MemoryBlobs where
  Ready _ := True
  put_spec {m} d data _ := by
    show ∃ new m', m.put d data = (.ok new, m') ∧ _
    rw [put, get?]
    cases hfound : m.blobs[d]? with
    | some found =>
      refine ⟨false, m, rfl, trivial, ?_⟩
      intro e
      by_cases heq : d = e
      · subst heq
        rw [find_eq, hfound, Option.some_or]
      · rw [if_neg heq, Option.or_none]
    | none =>
      refine ⟨true, ⟨m.blobs.insert d data⟩, rfl, trivial, ?_⟩
      intro e
      rw [find_eq, find_eq, Std.ExtTreeMap.getElem?_insert]
      by_cases heq : d = e
      · subst heq
        rw [if_pos Std.ReflCmp.compare_self, if_pos rfl, hfound, Option.none_or]
      · rw [if_neg (fun h => heq (Std.LawfulEqCmp.eq_of_compare h)), if_neg heq, Option.or_none]
  erase_spec {m} d _ := by
    refine ⟨⟨m.blobs.erase d⟩, rfl, trivial, ?_⟩
    intro e
    rw [find_eq, find_eq, Std.ExtTreeMap.getElem?_erase]
    by_cases heq : d = e
    · subst heq
      rw [if_pos Std.ReflCmp.compare_self, if_pos rfl]
    · rw [if_neg (fun h => heq (Std.LawfulEqCmp.eq_of_compare h)), if_neg heq]
  digests_spec {m} _ := by
    refine ⟨m.blobs.keys, rfl, ?_⟩
    intro d
    rw [find_eq, Std.ExtTreeMap.mem_keys, Std.ExtTreeMap.mem_iff_isSome_getElem?]

end MemoryBlobs

end DedupArchive
