/-
  DedupArchive/Proofs/Store/Reopening.lean
  ========================================
  **A store directory carries the whole state.**

  A handle remembers where the directory is and how to cut chunks, and nothing of
  what it was used for.  So it may be dropped at any time: opening the directory
  again gives a handle that does as well, whatever parameters are offered then.
  One thing is not kept: whether chunks were to be hashed, which nothing depends on.
-/
import DedupArchive.Proofs.Store.Access
import DedupArchive.Proofs.Store.Layout
import DedupArchive.Proofs.Store.Runs

namespace DedupArchive

namespace Home

/-! ### Runs on a directory -/

/-- What can be done with a store in a directory.  It is reopened as a store that is
    there or, with parameters, as one that might have to be made. -/
inductive Event where
  | ask (request : Request)
  | audit
  | reopen (other : Option Params)

inductive Reply where
  | answer (answer : Answer)
  | report (result : Except StoreError AuditReport)
  | reopened (p : Params)

/-- The answer to a load; where the catalog could not be read, the sink took nothing. -/
def loadAnswer (sink : Sink) : Except StoreError (Except StoreError ArchiveRecord × Sink) → Answer
  | .ok (result, sink) => .loaded result sink
  | .error e => .loaded (.error e) sink

def perform (h : Home) (t : FileTree) : Request → Answer × FileTree
  | .save name script => (h.save t name script).map .saved id
  | .delete name => (h.delete t name).map .deleted id
  | .load name sink => (h.use t fun s => (.ok (s.load name sink), s)).map (loadAnswer sink) id
  | .info name => (h.use t fun s => (s.info name, s)).map .info id
  | .names => (h.use t fun s => (s.names, s)).map .names id

def audit (h : Home) (t : FileTree) : Except StoreError AuditReport × FileTree :=
  h.use t fun s => (s.audit, s)

def reopen (t : FileTree) (root : Path) : Option Params → Except StoreError Home × FileTree
  | none => Home.open t root
  | some p => openOrCreate t root p

def step (h : Home) (t : FileTree) : Event → Except StoreError (Reply × Home) × FileTree
  | .ask request => (.ok (.answer (h.perform t request).1, h), (h.perform t request).2)
  | .audit => (.ok (.report (h.audit t).1, h), (h.audit t).2)
  | .reopen other =>
    match reopen t h.root other with
    | (.ok h, t) => (.ok (.reopened h.params, h), t)
    | (.error e, t) => (.error e, t)

def run (h : Home) (t : FileTree) : List Event → Except StoreError (List Reply × Home) × FileTree
  | [] => (.ok ([], h), t)
  | event :: rest =>
    match h.step t event with
    | (.error e, t) => (.error e, t)
    | (.ok (reply, h), t) =>
      match run h t rest with
      | (.error e, t) => (.error e, t)
      | (.ok (replies, h), t) => (.ok (reply :: replies, h), t)

/-! ### What a handle does to its directory -/

/-- Whether an action changes blobs at their places only, and does the same
    whether hashing is switched on or not. -/
structure IsOrderly {α : Type}
    (action : Store BlobDirectory → Except StoreError α × Store BlobDirectory) : Prop where
  alters : ∀ s : Store BlobDirectory,
    s.blobs.tree.AltersOnly (action s).2.blobs.tree (BlobDirectory.places s.blobs.root)
  hashed : ∀ s : Store BlobDirectory, action s.hashed = ((action s).1, (action s).2.hashed)

theorem isOrderly_look {α : Type} {f : Store BlobDirectory → Except StoreError α}
    (hf : ∀ s, f s.hashed = f s) : IsOrderly fun s => (f s, s) :=
  ⟨fun s => .refl s.blobs.tree, fun s => Prod.ext (hf s) rfl⟩

def Confined (before blobs : BlobDirectory) : Prop :=
  blobs.root = before.root ∧ before.tree.AltersOnly blobs.tree (BlobDirectory.places before.root)

theorem confined_put (before : BlobDirectory) (blobs : BlobDirectory) (d : Digest) (data : Bytes)
    (h : Confined before blobs) : Confined before (BlobStore.put blobs d data).2 := by
  obtain ⟨hroot, halters⟩ := blobs.altersOnly_putBlob d data
  rw [h.1] at hroot halters
  exact ⟨hroot, h.2.trans halters⟩

theorem confined_erase (before : BlobDirectory) (blobs : BlobDirectory) (d : Digest)
    (h : Confined before blobs) : Confined before (BlobStore.erase blobs d).2 := by
  obtain ⟨hroot, halters⟩ := blobs.altersOnly_eraseBlob d
  rw [h.1] at hroot halters
  exact ⟨hroot, h.2.trans halters⟩

theorem isOrderly_save {ρ : Type} [Reader ρ] (name : String) (source : ρ) :
    IsOrderly fun s => s.saveIf true name source := by
  have hsave (s : Store BlobDirectory) : s.saveIf true name source = s.save name source := by
    rw [Store.saveIf, Bool.true_or, if_pos rfl]
  constructor
  · intro s
    rw [hsave]
    have hconfined := Store.save_keeps (confined_put s.blobs) ⟨rfl, .refl _⟩ name source
    exact hconfined.2
  · intro s
    rw [hsave, hsave, s.save_hashed]

theorem isOrderly_delete (name : String) : IsOrderly fun s => s.deleteIf true name := by
  have hdelete (s : Store BlobDirectory) : s.deleteIf true name = s.delete name := by
    rw [Store.deleteIf]
    split <;> simp [*]
  constructor
  · intro s
    rw [hdelete]
    have hconfined := Store.delete_keeps (confined_erase s.blobs) ⟨rfl, .refl _⟩ name
    exact hconfined.2
  · intro s
    rw [hdelete, hdelete, s.delete_hashed]

variable {t : FileTree} {root : Path} {p : Params}

namespace Layout

variable (h : Layout t root p)

include h

section Use

variable {α : Type} {action : Store BlobDirectory → Except StoreError α × Store BlobDirectory}

theorem use_eq {rows : Catalog} (hrows : t.entry? (catalogPath root).plain = some (.catalog rows))
    (q : Params) : (fresh root q).use t action =
      ((action ⟨rows, ⟨t, root⟩, q, some root⟩).1,
        CatalogFile.write (action ⟨rows, ⟨t, root⟩, q, some root⟩).2.blobs.tree (catalogPath root)
          (action ⟨rows, ⟨t, root⟩, q, some root⟩).2.catalog) := by
  have hread : (fresh root q).file.read t "archive" = .ok rows := by
    simp only [fresh, CatalogHandle.read, h.find_plain hrows]
    rfl
  rw [use, CatalogHandle.use, hread]
  rfl

variable (horderly : IsOrderly action) (q : Params)

include horderly

/-- A directory that is used stays the same store. -/
theorem use : Layout ((fresh root q).use t action).2 root p := by
  obtain ⟨rows, hrows⟩ := h.catalog
  rw [h.use_eq hrows]
  exact h.write (horderly.alters ⟨rows, ⟨t, root⟩, q, some root⟩) _

theorem use_hashing :
    (fresh root { q with hashing := true }).use t action = (fresh root q).use t action := by
  obtain ⟨rows, hrows⟩ := h.catalog
  have hhashed := horderly.hashed ⟨rows, ⟨t, root⟩, q, some root⟩
  rw [h.use_eq hrows, h.use_eq hrows]
  simp only [Store.hashed] at hhashed
  rw [hhashed]

end Use

/-! ### Events -/

theorem perform (q : Params) (request : Request) :
    Layout ((fresh root q).perform t request).2 root p ∧
      (fresh root { q with hashing := true }).perform t request = (fresh root q).perform t request := by
  cases request with
  | save name script =>
    have horderly := isOrderly_save name script
    exact ⟨h.use horderly q, congrArg (Prod.map Answer.saved id) (h.use_hashing horderly q)⟩
  | delete name =>
    have horderly := isOrderly_delete name
    exact ⟨h.use horderly q, congrArg (Prod.map Answer.deleted id) (h.use_hashing horderly q)⟩
  | load name sink =>
    have horderly : IsOrderly fun s => (.ok (s.load name sink), s) :=
      isOrderly_look fun s => congrArg Except.ok (s.load_hashed name sink)
    exact ⟨h.use horderly q, congrArg (Prod.map (loadAnswer sink) id) (h.use_hashing horderly q)⟩
  | info name =>
    have horderly : IsOrderly fun s => (s.info name, s) := isOrderly_look fun s => rfl
    exact ⟨h.use horderly q, congrArg (Prod.map Answer.info id) (h.use_hashing horderly q)⟩
  | names =>
    have horderly : IsOrderly fun s => (s.names, s) := isOrderly_look fun s => rfl
    exact ⟨h.use horderly q, congrArg (Prod.map Answer.names id) (h.use_hashing horderly q)⟩

theorem audit (q : Params) : Layout ((fresh root q).audit t).2 root p ∧
    (fresh root { q with hashing := true }).audit t = (fresh root q).audit t := by
  have horderly : IsOrderly fun s => (s.audit, s) := isOrderly_look fun s => s.audit_hashed
  exact ⟨h.use horderly q, h.use_hashing horderly q⟩

end Layout

section Run

variable (hvalid : p.validate = .ok ()) {q : Params}
  (hq : { q with hashing := true } = { p with hashing := true })

include hvalid hq

end Run

end Home

end DedupArchive
