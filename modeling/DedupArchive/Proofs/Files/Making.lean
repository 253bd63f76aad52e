/-
  DedupArchive/Proofs/Files/Making.lean
  =====================================
  **Trees that grow.**

  In a tree of files everything stands in a directory.  Making directories and
  putting files keeps it so: where something is new, a directory was above it.
  Directories are made at the places that a path passes and nowhere else.  A path
  that takes no step up passes only places above the one it leads to, and a tree
  that has something there has directories at all of them.
-/
import DedupArchive.Proofs.Blobs.Separate
import Mathlib.Data.List.TakeWhile

namespace DedupArchive

namespace Path

variable {place : Path} {names : List String}

def passed (place : Path) (names : List String) : Set Path :=
  { q | ∃ more, more <+: names ∧ q = more.foldl step place }

theorem prefix_foldl_step (h : ".." ∉ names) (place : Path) : place <+: names.foldl step place := by
  induction names generalizing place with
  | nil => exact List.prefix_rfl
  | cons name rest ih =>
    rw [List.mem_cons, not_or] at h
    obtain ⟨hname, hrest⟩ := h
    refine List.IsPrefix.trans ?_ (ih hrest (step place name))
    rw [step, if_neg (Ne.symm hname)]
    split
    · exact List.prefix_rfl
    · exact List.prefix_append place [name]

/-- Without steps up all places that are passed are above the last one. -/
theorem prefix_of_passed (h : ".." ∉ names) {q : Path} (hq : q ∈ passed place names) :
    q <+: names.foldl step place := by
  obtain ⟨more, ⟨rest, rfl⟩, rfl⟩ := hq
  rw [List.foldl_append]
  exact prefix_foldl_step (fun hup => h (List.mem_append_right more hup)) _

theorem exists_slashes (p : Path) : ∃ slashes, p = p.trim ++ slashes ∧ ∀ name ∈ slashes, name = "" := by
  refine ⟨(p.reverse.takeWhile (· = "")).reverse, ?_, ?_⟩
  · rw [trim, ← List.reverse_append, List.takeWhile_append_dropWhile, List.reverse_reverse]
  · intro name hname
    simpa using List.mem_takeWhile_imp (List.mem_reverse.mp hname)

end Path

namespace FileTree

variable {t t' t'' : FileTree} {place p q : Path} {names : List String} {name : String}

/-! ### Trees -/

def IsRooted (t : FileTree) : Prop :=
  ∀ place name, t.entry? (place ++ [name]) ≠ none → t.entry? place = some .directory

theorem IsRooted.entry_above (h : t.IsRooted) {rest : Path} (hrest : rest ≠ [])
    (hentry : t.entry? (place ++ rest) ≠ none) : t.entry? place = some .directory := by
  induction rest using List.reverseRecOn with
  | nil => exact absurd rfl hrest
  | append_singleton rest name ih =>
    rw [← List.append_assoc] at hentry
    have habove := h _ name hentry
    by_cases hempty : rest = []
    · rwa [hempty, List.append_nil] at habove
    · exact ih hempty (by simp [habove])

theorem IsRooted.entry_dropLast (h : t.IsRooted) (hplace : t.entry? place = some .directory) :
    t.entry? place.dropLast = some .directory := by
  by_cases htop : place = []
  · rw [htop]
    rfl
  · refine h.entry_above (List.cons_ne_nil (place.getLast htop) []) ?_
    rw [List.dropLast_concat_getLast, hplace]
    simp

/-- Names without steps up lead on a way wherever they lead to a directory. -/
theorem IsRooted.way (h : t.IsRooted) (hnames : ".." ∉ names)
    (hentry : t.entry? (names.foldl Path.step place) = some .directory) : t.Way place names := by
  have hhead {place : Path} {names : List String} (hnames : ".." ∉ names)
      (hentry : t.entry? (names.foldl Path.step place) = some .directory) :
      t.entry? place = some .directory := by
    obtain ⟨rest, hrest⟩ := Path.prefix_foldl_step hnames place
    by_cases hempty : rest = []
    · rwa [← hrest, hempty, List.append_nil] at hentry
    · rw [← hrest] at hentry
      exact h.entry_above hempty (by simp [hentry])
  induction names generalizing place with
  | nil => exact hentry
  | cons name rest ih =>
    exact ⟨hhead hnames hentry, ih (fun hup => hnames (List.mem_cons_of_mem name hup)) hentry⟩

def IsPartOf (t t' : FileTree) : Prop := ∀ q e, t.entry? q = some e → t'.entry? q = some e

/-! ### Growing -/

/-- Whether a tree has grown at some places: nothing is gone, all directories are
    still there, and what is new stands in one. -/
structure Grows (t t' : FileTree) (places : Set Path) : Prop where
  alters : t.AltersOnly t' places
  stays : ∀ q, t.entry? q ≠ none → t'.entry? q ≠ none
  rooted : t.IsRooted → t'.IsRooted

variable {places places' : Set Path}

theorem Grows.refl (t : FileTree) : t.Grows t places := ⟨.refl t, fun _ h => h, id⟩

theorem Grows.trans (h : t.Grows t' places) (h' : t'.Grows t'' places) : t.Grows t'' places :=
  ⟨h.alters.trans h'.alters, fun q hq => h'.stays q (h.stays q hq), fun hrooted => h'.rooted (h.rooted hrooted)⟩

theorem Grows.mono (h : t.Grows t' places) (hmore : places ⊆ places') : t.Grows t' places' :=
  ⟨h.alters.mono hmore, h.stays, h.rooted⟩

theorem Grows.keeps (h : t.Grows t' places) : t.KeepsDirectories t' := h.alters.keeps

/-- Something put into a directory, where no directory is. -/
theorem grows_put {e : Entry} (hplace : t.entry? place = some .directory)
    (hfree : t.entry? (place ++ [name]) ≠ some .directory) :
    t.Grows (t.put (place ++ [name]) e) {place ++ [name]} := by
  have htop : place ++ [name] ≠ [] := List.append_ne_nil_of_right_ne_nil _ (List.cons_ne_nil _ _)
  have halters : t.AltersOnly (t.put (place ++ [name]) e) {place ++ [name]} := altersOnly_put htop hfree
  refine ⟨halters, ?_, ?_⟩
  · intro q hq
    rw [entry_put htop]
    split
    · simp
    · exact hq
  · intro hrooted q other hentry
    rw [entry_put htop] at hentry
    split at hentry
    · rename_i heq
      obtain ⟨rfl, -⟩ := List.append_inj' heq rfl
      exact halters.keeps _ hplace
    · exact halters.keeps q (hrooted q other hentry)

theorem isRooted_ofDirectory (name : String) : (ofDirectory name).IsRooted := by
  have hempty : IsRooted ⟨∅⟩ := by
    intro place other hentry
    rw [entry_eq (List.append_ne_nil_of_right_ne_nil _ (List.cons_ne_nil _ _))] at hentry
    exact absurd Std.ExtTreeMap.getElem?_empty hentry
  have hfree : entry? ⟨∅⟩ ([] ++ [name]) ≠ some .directory := by
    intro hentry
    rw [List.nil_append, entry_eq (List.cons_ne_nil _ _), Std.ExtTreeMap.getElem?_empty] at hentry
    cases hentry
  exact (grows_put rfl hfree).rooted hempty

/-- A name that leads to nothing leads down. -/
theorem IsRooted.step_eq (h : t.IsRooted) (hplace : t.entry? place = some .directory)
    (hnone : t.entry? (Path.step place name) = none) : Path.step place name = place ++ [name] := by
  rw [Path.step] at hnone ⊢
  split at hnone
  · rw [hplace] at hnone
    cases hnone
  · split at hnone
    · rw [h.entry_dropLast hplace] at hnone
      cases hnone
    · rename_i hidle hup
      rw [if_neg hidle, if_neg hup]

theorem grows_makeBelow (hrooted : t.IsRooted) (hplace : t.entry? place = some .directory) {made : Bool}
    {result : Except IoError Unit} (h : t.makeBelow place made names = (result, t')) :
    t.Grows t' (Path.passed place names) := by
  induction names generalizing t place made with
  | nil =>
    cases h
    exact .refl _
  | cons name rest ih =>
    have hrest : Path.passed (Path.step place name) rest ⊆ Path.passed place (name :: rest) := by
      rintro _ ⟨more, hmore, rfl⟩
      exact ⟨name :: more, List.cons_prefix_cons.mpr ⟨rfl, hmore⟩, rfl⟩
    rw [makeBelow] at h
    cases hnext : t.entry? (Path.step place name) with
    | none =>
      have hstep := hrooted.step_eq hplace hnext
      simp only [hnext] at h
      split at h
      · cases h
        exact .refl _
      · split at h
        · cases h
          exact .refl _
        · have hput : t.Grows (t.put (Path.step place name) .directory) {Path.step place name} := by
            rw [hstep] at hnext ⊢
            exact grows_put hplace (by simp [hnext])
          have hmade : FileTree.entry? (t.put (Path.step place name) .directory)
              (Path.step place name) = some .directory := by
            rw [entry_put (by rw [hstep]; simp), if_pos rfl]
          refine Grows.trans (hput.mono ?_) ((ih (hput.rooted hrooted) hmade h).mono hrest)
          rintro _ rfl
          exact ⟨[name], List.prefix_append [name] rest, rfl⟩
    | some found =>
      cases found with
      | directory =>
        simp only [hnext] at h
        exact (ih hrooted hnext h).mono hrest
      | file data =>
        simp only [hnext] at h
        cases h
        exact .refl _
      | catalog rows =>
        simp only [hnext] at h
        cases h
        exact .refl _

/-- Where directories cannot be made, there is no way either. -/
theorem not_way_of_makeBelow {made : Bool} {e : IoError}
    (h : t.makeBelow place made names = (.error e, t')) : ¬ t'.Way place names := by
  induction names generalizing t place made with
  | nil => cases h
  | cons name rest ih =>
    rintro ⟨-, hway⟩
    have hnext := hway.head
    rw [makeBelow] at h
    cases hentry : t.entry? (Path.step place name) with
    | none =>
      simp only [hentry] at h
      split at h
      · cases h
        rw [hentry] at hnext
        cases hnext
      · split at h
        · cases h
          rw [hentry] at hnext
          cases hnext
        · exact ih h hway
    | some found =>
      cases found with
      | directory =>
        simp only [hentry] at h
        exact ih h hway
      | file data =>
        simp only [hentry] at h
        cases h
        rw [hentry] at hnext
        cases hnext
      | catalog rows =>
        simp only [hentry] at h
        cases h
        rw [hentry] at hnext
        cases hnext

/-! ### Directories along a path -/

theorem way_append_slashes {slashes : List String} (hslashes : ∀ name ∈ slashes, name = "") :
    t.Way place (names ++ slashes) ↔ t.Way place names := by
  rw [way_append]
  refine ⟨And.left, fun h => ⟨h, ?_⟩⟩
  have hlast := h.entry_last
  induction slashes with
  | nil => exact hlast
  | cons name rest ih =>
    obtain ⟨rfl, hrest⟩ := List.forall_mem_cons.mp hslashes
    exact ⟨hlast, ih hrest⟩

theorem way_trim_iff : t.Way [] p.trim ↔ t.Way [] p := by
  obtain ⟨slashes, heq, hslashes⟩ := p.exists_slashes
  exact (way_append_slashes hslashes).symm.trans (by rw [← heq])

theorem way_stem_iff : t.Way [] p.stem ↔ t.Way [] p := by
  rcases p.eq_stem_or with heq | heq
  · rw [← heq]
  · have hslash : ∀ name ∈ [""], name = "" := by simp
    exact (way_append_slashes hslash).symm.trans (by rw [← heq])

theorem way_of_made (h : t.makeDirectories p = (.ok (), t')) : t'.Way [] p := by
  rw [makeDirectories] at h
  split at h
  · cases h
  · exact way_trim_iff.mp (way_of_makeBelow rfl h).2

theorem refused_or_not_way {e : IoError} (h : t.makeDirectories p = (.error e, t')) :
    p.refusal? ≠ none ∨ ¬ t'.Way [] p := by
  rw [makeDirectories] at h
  split at h
  · rename_i hrefusal
    exact Or.inl (by simp [hrefusal])
  · exact Or.inr fun hway => not_way_of_makeBelow h (way_trim_iff.mpr hway)

theorem grows_makeDirectories (hrooted : t.IsRooted) {result : Except IoError Unit}
    (h : t.makeDirectories p = (result, t')) : t.Grows t' (Path.passed [] p) := by
  rw [makeDirectories] at h
  split at h
  · cases h
    exact .refl t
  · refine (grows_makeBelow hrooted rfl h).mono ?_
    obtain ⟨slashes, heq, -⟩ := p.exists_slashes
    rintro _ ⟨more, hmore, rfl⟩
    exact ⟨more, heq ▸ hmore.trans (List.prefix_append p.trim slashes), rfl⟩

/-! ### One name below a path -/

section Name

variable (hname : Path.IsStep name)

include hname

theorem reaches_name_iff : t.reaches (p ++ [name]) = true ↔
    Path.Taken (p ++ [name]) ∧ t.Way [] p ∧ t.entry? (p.plain ++ [name]) ≠ none := by
  constructor
  · intro h
    rw [reaches, find] at h
    cases hlocate : t.locate (p ++ [name]) with
    | error e =>
      rw [hlocate] at h
      cases h
    | ok found =>
      obtain ⟨hplain, hentry⟩ := entry_of_locate (q := found.1) (e := found.2) hlocate
      rw [hplain, hname.plain_append] at hentry
      rw [locate] at hlocate
      split at hlocate
      · cases hlocate
      · rename_i hrefusal
        obtain ⟨hway, hshort⟩ := way_of_walk_name hlocate
        exact ⟨⟨hrefusal, hshort⟩, hway, by simp [hentry]⟩
  · rintro ⟨htaken, hway, hentry⟩
    obtain ⟨e, he⟩ := Option.ne_none_iff_exists'.mp hentry
    have hleads : t.Leads p := ⟨htaken.of_append, hway⟩
    rw [reaches, hleads.find_name htaken hname he]
    rfl

theorem exists_putFile_iff {e : Entry} : (∃ t', t.putFile (p ++ [name]) e = .ok t') ↔
    Path.Taken (p ++ [name]) ∧ t.Way [] p ∧ t.entry? (p.plain ++ [name]) ≠ some .directory := by
  constructor
  · rintro ⟨t', hput⟩
    obtain ⟨htaken, hway, hfree, -⟩ := eq_of_putFile hname hput
    exact ⟨htaken, hway, hfree⟩
  · rintro ⟨htaken, hway, hfree⟩
    have hleads : t.Leads p := ⟨htaken.of_append, hway⟩
    exact ⟨_, hleads.putFile_name htaken hname e hfree⟩

theorem grows_putFile {e : Entry} (h : t.putFile (p ++ [name]) e = .ok t') :
    t.Grows t' {p.plain ++ [name]} := by
  obtain ⟨-, hway, hfree, rfl⟩ := eq_of_putFile hname h
  exact grows_put hway.entry_last hfree

/-- Making one directory more in a directory. -/
theorem Way.makeDirectories_name (h : t.Way [] p) : t.makeDirectories (p ++ [name]) =
    match Path.refusal? (p ++ [name]) with
    | some e => (.error e, t)
    | none =>
      match t.entry? (p.plain ++ [name]) with
      | some .directory => (.ok (), t)
      | some _ => (.error .fileExists, t)
      | none =>
        if Path.isTooLong name then (.error .nameTooLong, t)
        else (.ok (), t.put (p.plain ++ [name]) .directory) := by
  have hbelow {place : Path} {names : List String} {made : Bool} (hway : t.Way place names) :
      t.makeBelow place made (names ++ [name]) =
        t.makeBelow (names.foldl Path.step place) made [name] := by
    induction names generalizing place with
    | nil => rfl
    | cons first rest ih =>
      rw [List.cons_append, makeBelow, hway.2.head]
      exact ih hway.2
  rw [makeDirectories, Path.trim_append_singleton hname.ne_empty]
  cases Path.refusal? (p ++ [name]) with
  | some e => rfl
  | none =>
    have hplain : p.foldl Path.step [] = p.plain := rfl
    simp only [hbelow h, makeBelow, hplain, hname.step_eq]
    rcases t.entry? (p.plain ++ [name]) with _ | _ | _ | _ <;> simp

theorem Way.grows_makeDirectories_name (h : t.Way [] p) {result : Except IoError Unit}
    (hmake : t.makeDirectories (p ++ [name]) = (result, t')) : t.Grows t' {p.plain ++ [name]} := by
  rw [h.makeDirectories_name hname] at hmake
  split at hmake
  · cases hmake
    exact .refl _
  · split at hmake
    · cases hmake
      exact .refl _
    · cases hmake
      exact .refl _
    · rename_i hnone
      split at hmake
      · cases hmake
        exact .refl _
      · cases hmake
        exact grows_put h.entry_last (by simp [hnone])

end Name

end FileTree

end DedupArchive
