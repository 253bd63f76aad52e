/-
  DedupArchive/Proofs/Store/Runs.lean
  ===================================
  **Runs of a store.**

  A run is any sequence of the five things that can be asked of a store.  Each of
  them keeps a sound store sound, and only a save that fails can leave a blob that
  nothing refers to.  So from the empty store on, an audit finds nothing but what
  failed saves have left.
-/
import DedupArchive.Proofs.Store.Preservation

namespace DedupArchive

inductive Request where
  | save (name : String) (script : Script)
  | delete (name : String)
  | load (name : String) (sink : Sink)
  | info (name : String)
  | names

inductive Answer where
  | saved (result : Except StoreError SaveSummary)
  | deleted (result : Except StoreError Unit)
  | loaded (result : Except StoreError ArchiveRecord) (sink : Sink)
  | info (result : Except StoreError ArchiveRecord)
  | names (result : Except StoreError (List String))

namespace Store

variable {σ : Type} [BlobStore σ]

def perform (s : Store σ) : Request → Answer × Store σ
  | .save name script => (.saved (s.save name script).1, (s.save name script).2)
  | .delete name => (.deleted (s.delete name).1, (s.delete name).2)
  | .load name sink => (.loaded (s.load name sink).1 (s.load name sink).2, s)
  | .info name => (.info (s.info name), s)
  | .names => (.names s.names, s)

def run (s : Store σ) : List Request → List Answer × Store σ
  | [] => ([], s)
  | request :: rest =>
    ((s.perform request).1 :: ((s.perform request).2.run rest).1, ((s.perform request).2.run rest).2)

end Store

def Request.cut (p : Params) : Request → List Bytes
  | .save _ script => Store.cut p script
  | _ => []

def Request.Fits : Request → Prop
  | .save _ script => script.delivered.1.length < 2 ^ 63
  | _ => True

namespace Store

variable {σ : Type} [BlobStore σ] [FaithfulBlobs σ] {s : Store σ}

/-! ### One step -/

section Step

variable (h : s.Sound)

include h

theorem Sound.save {name : String} {script : Script} (hfits : script.delivered.1.length < 2 ^ 63)
    (hdistinct : Set.InjOn Digest.of (s.occurring script)) : (s.save name script).2.Sound := by
  rcases h.save_cases name hfits with ⟨-, hsave⟩ | ⟨-, blobs, hready, hfind, ⟨e, -, hsave⟩ |
    ⟨-, hadmits, hflatten, summary, -, hsave⟩⟩
  · rw [hsave]
    exact h
  · rw [hsave]
    exact sound_of_more h hready hfind
  · rw [hsave]
    exact sound_of_entered h hadmits hready hfind (congrArg Digest.of hflatten) hdistinct

/-- A save that fails may leave blobs that it put; one that succeeds leaves none. -/
theorem Sound.unreferenced_save {name : String} {script : Script}
    (hfits : script.delivered.1.length < 2 ^ 63) {d : Digest}
    (hd : (s.save name script).2.Unreferenced d) : s.Unreferenced d ∨
      BlobStore.find s.blobs d = none ∧ ∃ e, (s.save name script).1 = .error e := by
  rcases h.save_cases name hfits with ⟨-, hsave⟩ | ⟨-, blobs, -, hfind, ⟨e, -, hsave⟩ |
    ⟨-, -, -, summary, -, hsave⟩⟩
  · rw [hsave] at hd
    exact Or.inl hd
  · rw [hsave] at hd ⊢
    cases hfound : BlobStore.find s.blobs d with
    | none => exact Or.inr ⟨rfl, _, rfl⟩
    | some data => exact Or.inl ⟨by rw [hfound]; rfl, hd.2⟩
  · rw [hsave] at hd
    exact Or.inl (unreferenced_of_entered hfind hd)

/-- Every blob after a save was there before or is a chunk that was cut. -/
theorem Sound.find_save {name : String} {script : Script}
    (hfits : script.delivered.1.length < 2 ^ 63) {d : Digest} {data : Bytes}
    (hfound : BlobStore.find (s.save name script).2.blobs d = some data) :
    data ∈ s.occurring script := by
  have hmore {blobs : σ} (hfind : ∀ d, BlobStore.find blobs d =
      (BlobStore.find s.blobs d).or (partOf (cut s.params script) d))
      (hfound : BlobStore.find blobs d = some data) : data ∈ s.occurring script := by
    rw [hfind, Option.or_eq_some_iff] at hfound
    rcases hfound with hfound | ⟨-, hfound⟩
    · exact Or.inl ⟨d, hfound⟩
    · exact Or.inr (partOf_eq_some hfound).1
  rcases h.save_cases name hfits with ⟨-, hsave⟩ | ⟨-, blobs, -, hfind, ⟨e, -, hsave⟩ |
    ⟨-, -, -, summary, -, hsave⟩⟩
  · rw [hsave] at hfound
    exact Or.inl ⟨d, hfound⟩
  · rw [hsave] at hfound
    exact hmore hfind hfound
  · rw [hsave] at hfound
    exact hmore hfind hfound

theorem Sound.delete (name : String) : (s.delete name).2.Sound := by
  rcases h.delete_cases name with ⟨-, hdelete⟩ | ⟨a, rows, blobs, -, -, -, hready, hfind, hdelete⟩
  · rw [hdelete]
    exact h
  · rw [hdelete]
    exact sound_of_removed h hready hfind

/-- A deletion leaves no blob that nothing refers to. -/
theorem Sound.unreferenced_delete {name : String} {d : Digest}
    (hd : (s.delete name).2.Unreferenced d) : s.Unreferenced d := by
  rcases h.delete_cases name with ⟨-, hdelete⟩ | ⟨a, rows, blobs, -, -, hrows, -, hfind, hdelete⟩
  · rw [hdelete] at hd
    exact hd
  · rw [hdelete] at hd
    exact unreferenced_of_removed hrows hfind hd

/-- Every blob after a deletion was there before. -/
theorem Sound.find_delete {name : String} {d : Digest} {data : Bytes}
    (hfound : BlobStore.find (s.delete name).2.blobs d = some data) :
    BlobStore.find s.blobs d = some data := by
  rcases h.delete_cases name with ⟨-, hdelete⟩ | ⟨a, rows, blobs, -, -, -, -, hfind, hdelete⟩
  · rw [hdelete] at hfound
    exact hfound
  · rw [hdelete] at hfound
    have hfound : BlobStore.find blobs d = some data := hfound
    rw [hfind] at hfound
    split at hfound
    · cases hfound
    · exact hfound

end Step

/-! ### Any number of steps -/

structure Within (s : Store σ) (p : Params) (chunks : Set Bytes) : Prop where
  sound : s.Sound
  params : s.params = p
  stored : ∀ d data, BlobStore.find s.blobs d = some data → data ∈ chunks

/-- What occurs at a save is among the chunks. -/
theorem Within.occurring_subset {p : Params} {chunks : Set Bytes} (h : s.Within p chunks)
    {script : Script} (hcut : ∀ data ∈ cut p script, data ∈ chunks) :
    s.occurring script ⊆ chunks := by
  rintro data (⟨d, hfound⟩ | hdata)
  · exact h.stored d data hfound
  · rw [h.params] at hdata
    exact hcut data hdata

section Run

variable {p : Params} {chunks : Set Bytes} (hdistinct : Set.InjOn Digest.of chunks)

include hdistinct

theorem Within.perform (h : s.Within p chunks) {request : Request} (hfits : request.Fits)
    (hcut : ∀ data ∈ request.cut p, data ∈ chunks) : (s.perform request).2.Within p chunks := by
  cases request with
  | save name script =>
    have hoccurring := h.occurring_subset hcut
    refine ⟨h.sound.save hfits (hdistinct.mono hoccurring), ?_, ?_⟩
    · rcases h.sound.save_cases name hfits with ⟨-, hsave⟩ | ⟨-, blobs, -, -, ⟨e, -, hsave⟩ |
        ⟨-, -, -, summary, -, hsave⟩⟩
      · exact (congrArg (fun result => result.2.params) hsave).trans h.params
      · exact (congrArg (fun result => result.2.params) hsave).trans h.params
      · exact (congrArg (fun result => result.2.params) hsave).trans h.params
    · intro d data hfound
      exact hoccurring (h.sound.find_save hfits hfound)
  | delete name =>
    refine ⟨h.sound.delete name, ?_, ?_⟩
    · rcases h.sound.delete_cases name with ⟨-, hdelete⟩ | ⟨a, rows, blobs, -, -, -, -, -, hdelete⟩
      · exact (congrArg (fun result => result.2.params) hdelete).trans h.params
      · exact (congrArg (fun result => result.2.params) hdelete).trans h.params
    · intro d data hfound
      exact h.stored d data (h.sound.find_delete hfound)
  | load name sink => exact h
  | info name => exact h
  | names => exact h

theorem Within.run (h : s.Within p chunks) {requests : List Request}
    (hfits : ∀ request ∈ requests, request.Fits)
    (hcut : ∀ request ∈ requests, ∀ data ∈ request.cut p, data ∈ chunks) :
    (s.run requests).2.Within p chunks := by
  induction requests generalizing s with
  | nil => exact h
  | cons request rest ih =>
    exact ih (h.perform hdistinct (hfits request List.mem_cons_self) (hcut request List.mem_cons_self))
      (fun r hr => hfits r (List.mem_cons_of_mem request hr))
      (fun r hr => hcut r (List.mem_cons_of_mem request hr))

end Run

/-- A save of the run failed and put the blob, which was not there before. -/
def LeftByFailedSave (s : Store σ) (requests : List Request) (d : Digest) : Prop :=
  ∃ before name script after e, requests = before ++ .save name script :: after ∧
    ((s.run before).2.save name script).1 = .error e ∧
    BlobStore.find (s.run before).2.blobs d = none ∧
    (BlobStore.find ((s.run before).2.save name script).2.blobs d).isSome = true

omit [FaithfulBlobs σ] in
theorem LeftByFailedSave.cons {request : Request} {rest : List Request} {d : Digest}
    (h : (s.perform request).2.LeftByFailedSave rest d) : s.LeftByFailedSave (request :: rest) d := by
  obtain ⟨before, name, script, after, e, rfl, herror, hnone, hsome⟩ := h
  exact ⟨request :: before, name, script, after, e, rfl, herror, hnone, hsome⟩

omit [FaithfulBlobs σ] in
/-- The answer to a save that failed is among the answers of the run. -/
theorem LeftByFailedSave.exists_answer {requests : List Request} {d : Digest}
    (h : s.LeftByFailedSave requests d) : ∃ e, .saved (.error e) ∈ (s.run requests).1 := by
  obtain ⟨before, name, script, after, e, rfl, herror, -⟩ := h
  refine ⟨e, ?_⟩
  induction before generalizing s with
  | nil =>
    rw [← herror]
    exact List.mem_cons_self
  | cons request before ih => exact List.mem_cons_of_mem _ (ih herror)

/-- Blobs that nothing refers to were there before the run, or a failed save left them. -/
theorem Within.unreferenced_run {p : Params} {chunks : Set Bytes}
    (hdistinct : Set.InjOn Digest.of chunks) (h : s.Within p chunks) {requests : List Request}
    (hfits : ∀ request ∈ requests, request.Fits)
    (hcut : ∀ request ∈ requests, ∀ data ∈ request.cut p, data ∈ chunks) {d : Digest}
    (hd : (s.run requests).2.Unreferenced d) :
    s.Unreferenced d ∨ s.LeftByFailedSave requests d := by
  induction requests generalizing s with
  | nil => exact Or.inl hd
  | cons request rest ih =>
    have hfirst := hfits request List.mem_cons_self
    have hnext := h.perform hdistinct hfirst (hcut request List.mem_cons_self)
    rcases ih hnext (fun r hr => hfits r (List.mem_cons_of_mem request hr))
      (fun r hr => hcut r (List.mem_cons_of_mem request hr)) hd with hd | hleft
    · cases request with
      | save name script =>
        rcases h.sound.unreferenced_save hfirst hd with hold | ⟨hnone, e, herror⟩
        · exact Or.inl hold
        · exact Or.inr ⟨[], name, script, rest, e, rfl, herror, hnone, hd.1⟩
      | delete name => exact Or.inl (h.sound.unreferenced_delete hd)
      | load name sink => exact Or.inl hd
      | info name => exact Or.inl hd
      | names => exact Or.inl hd
    · exact Or.inr hleft.cons

/-- A store of nothing. -/
theorem sound_empty {blobs : σ} (hready : FaithfulBlobs.Ready blobs)
    (hempty : ∀ d, BlobStore.find blobs d = none) (p : Params) (home : Option Path) :
    Sound ⟨.empty, blobs, p, home⟩ where
  lawful := Catalog.lawful_empty
  linked := Catalog.linked_empty
  ready := hready
  honest d data hfound := by rw [hempty] at hfound; cases hfound
  whole r hr := nomatch hr

def cutIn (p : Params) (requests : List Request) : Set Bytes :=
  {data | ∃ request ∈ requests, data ∈ request.cut p}

theorem within_empty {blobs : σ} (hready : FaithfulBlobs.Ready blobs)
    (hempty : ∀ d, BlobStore.find blobs d = none) (p : Params) (home : Option Path)
    (chunks : Set Bytes) : Within ⟨.empty, blobs, p, home⟩ p chunks where
  sound := sound_empty hready hempty p home
  params := rfl
  stored d data hfound := by rw [hempty] at hfound; cases hfound

/-- After a run from the empty store an audit finds only what failed saves have
    left, and if no save failed, the blobs are those that are referred to. -/
theorem exists_report_of_run {p : Params} {blobs : σ} {home : Option Path}
    (hready : FaithfulBlobs.Ready blobs) (hempty : ∀ d, BlobStore.find blobs d = none)
    {requests : List Request} (hfits : ∀ request ∈ requests, request.Fits)
    (hdistinct : Set.InjOn Digest.of (cutIn p requests)) :
    ∃ report, (run ⟨.empty, blobs, p, home⟩ requests).2.audit = .ok report ∧
      (∀ f ∈ report.findings, ∃ d, f = .orphanBlob d ∧
        LeftByFailedSave ⟨.empty, blobs, p, home⟩ requests d) ∧
      ((∀ e, .saved (.error e) ∉ (run ⟨.empty, blobs, p, home⟩ requests).1) →
        report.findings = [] ∧ ∃ stored,
          BlobStore.digests (run ⟨.empty, blobs, p, home⟩ requests).2.blobs = .ok stored ∧
          ∀ d, d ∈ stored ↔
            (run ⟨.empty, blobs, p, home⟩ requests).2.catalog.isReferenced d = true) := by
  have hstart := within_empty hready hempty p home (cutIn p requests)
  have hcut : ∀ request ∈ requests, ∀ data ∈ request.cut p, data ∈ cutIn p requests := by
    intro request hrequest data hdata
    exact ⟨request, hrequest, hdata⟩
  have hsound := (hstart.run hdistinct hfits hcut).sound
  have hleft {d : Digest} (hd : (run ⟨.empty, blobs, p, home⟩ requests).2.Unreferenced d) :
      LeftByFailedSave ⟨.empty, blobs, p, home⟩ requests d := by
    rcases hstart.unreferenced_run hdistinct hfits hcut hd with ⟨hthere, -⟩ | hleft
    · rw [hempty] at hthere
      cases hthere
    · exact hleft
  obtain ⟨report, haudit⟩ := hsound.exists_report
  refine ⟨report, haudit, ?_, ?_⟩
  · intro f hf
    obtain ⟨d, rfl, hd⟩ := (hsound.mem_findings_iff haudit).mp hf
    exact ⟨d, rfl, hleft hd⟩
  · intro hnone
    have hused (d : Digest) : ¬ (run ⟨.empty, blobs, p, home⟩ requests).2.Unreferenced d := by
      intro hd
      obtain ⟨e, hanswer⟩ := (hleft hd).exists_answer
      exact hnone e hanswer
    refine ⟨?_, hsound.exists_digests_of_used hused⟩
    rw [List.eq_nil_iff_forall_not_mem]
    intro f hf
    obtain ⟨d, rfl, hd⟩ := (hsound.mem_findings_iff haudit).mp hf
    exact hused d hd

/-- **Health is an invariant.**  Saving and deleting take a healthy store to a
    healthy one, and a blob that nothing refers to afterwards was so before or was
    put by a save that failed.  So after any run from the empty store an audit
    finds only blobs that failed saves have left, and nothing if no save failed. -/
theorem healthy_invariant :
    (∀ s : Store σ, s.Healthy →
      (∀ (name : String) (script : Script), script.delivered.1.length < 2 ^ 63 →
        Set.InjOn Digest.of (s.occurring script) →
          (s.save name script).2.Healthy ∧
          ∀ d, (s.save name script).2.Unreferenced d → s.Unreferenced d ∨
            BlobStore.find s.blobs d = none ∧ ∃ e, (s.save name script).1 = .error e) ∧
      ∀ name : String, (s.delete name).2.Healthy ∧
        ((s.delete name).1 = .ok () ∨ (s.delete name).1 = .error (.notFound name)) ∧
        ∀ d, (s.delete name).2.Unreferenced d → s.Unreferenced d) ∧
    ∀ (p : Params) (blobs : σ) (home : Option Path), FaithfulBlobs.Ready blobs →
      (∀ d, BlobStore.find blobs d = none) → ∀ requests : List Request,
        (∀ request ∈ requests, request.Fits) → Set.InjOn Digest.of (cutIn p requests) →
          ∃ report, (run ⟨.empty, blobs, p, home⟩ requests).2.audit = .ok report ∧
            (∀ f ∈ report.findings, ∃ d, f = .orphanBlob d ∧
              LeftByFailedSave ⟨.empty, blobs, p, home⟩ requests d) ∧
            ((∀ e, .saved (.error e) ∉ (run ⟨.empty, blobs, p, home⟩ requests).1) →
              report.findings = [] ∧ ∃ stored,
                BlobStore.digests (run ⟨.empty, blobs, p, home⟩ requests).2.blobs = .ok stored ∧
                ∀ d, d ∈ stored ↔
                  (run ⟨.empty, blobs, p, home⟩ requests).2.catalog.isReferenced d = true) := by
  refine ⟨?_, ?_⟩
  · intro s hhealthy
    have h := hhealthy.sound
    refine ⟨?_, ?_⟩
    · intro name script hfits hdistinct
      exact ⟨(h.save hfits hdistinct).healthy, fun d hd => h.unreferenced_save hfits hd⟩
    · intro name
      refine ⟨(h.delete name).healthy, ?_, fun d hd => h.unreferenced_delete hd⟩
      rcases h.delete_cases name with ⟨-, hdelete⟩ | ⟨a, rows, blobs, -, -, -, -, -, hdelete⟩
      · exact Or.inr (congrArg Prod.fst hdelete)
      · exact Or.inl (congrArg Prod.fst hdelete)
  · intro p blobs home hready hempty requests hfits hdistinct
    exact exists_report_of_run hready hempty hfits hdistinct

def threeBytes : Script := [.data [1, 2] none, .failure ⟨.interrupted, "again"⟩, .data [3] none]

theorem cut_threeBytes : cut .standard threeBytes = [[1, 2, 3]] := by
  have hdelivered : threeBytes.delivered = ([1, 2, 3], none) := rfl
  rw [cut, chunksOf_of_delivered hdelivered]
  decide

theorem healthy_invariant_threeBytes :
    ((⟨.empty, .empty, .standard, none⟩ : Store MemoryBlobs).save "a" threeBytes).2.Healthy ∧
      ∃ report, ((⟨.empty, .empty, .standard, none⟩ : Store MemoryBlobs).run
          [.save "a" threeBytes, .save "b" threeBytes, .delete "a"]).2.audit = .ok report ∧
        ∀ f ∈ report.findings, ∃ d, f = .orphanBlob d ∧
          LeftByFailedSave ⟨.empty, MemoryBlobs.empty, .standard, none⟩
            [.save "a" threeBytes, .save "b" threeBytes, .delete "a"] d := by
  obtain ⟨hstep, hrun⟩ := @healthy_invariant MemoryBlobs _ _
  have hempty : (⟨.empty, .empty, .standard, none⟩ : Store MemoryBlobs).Healthy :=
    (sound_empty trivial MemoryBlobs.find_empty .standard none).healthy
  have hsingle {chunks : Set Bytes} (hchunks : ∀ data ∈ chunks, data = [1, 2, 3]) :
      Set.InjOn Digest.of chunks := by
    intro x hx y hy _
    rw [hchunks x hx, hchunks y hy]
  have hcut {data : Bytes} (hdata : data ∈ cut .standard threeBytes) : data = [1, 2, 3] := by
    rw [cut_threeBytes, List.mem_singleton] at hdata
    exact hdata
  constructor
  · refine ((hstep _ hempty).1 "a" threeBytes (by decide) (hsingle ?_)).1
    rintro data (⟨d, hfound⟩ | hdata)
    · rw [MemoryBlobs.find_empty] at hfound
      cases hfound
    · exact hcut hdata
  · obtain ⟨report, haudit, hfindings, -⟩ := hrun .standard .empty none trivial
      MemoryBlobs.find_empty [.save "a" threeBytes, .save "b" threeBytes, .delete "a"]
      (by
        intro request hrequest
        simp only [List.mem_cons, List.not_mem_nil, or_false] at hrequest
        rcases hrequest with rfl | rfl | rfl
        · exact (by decide : threeBytes.delivered.1.length < 2 ^ 63)
        · exact (by decide : threeBytes.delivered.1.length < 2 ^ 63)
        · trivial)
      (hsingle (by
        rintro data ⟨request, hrequest, hdata⟩
        simp only [List.mem_cons, List.not_mem_nil, or_false] at hrequest
        rcases hrequest with rfl | rfl | rfl
        · exact hcut hdata
        · exact hcut hdata
        · cases hdata))
    exact ⟨report, haudit, hfindings⟩

end Store

end DedupArchive
