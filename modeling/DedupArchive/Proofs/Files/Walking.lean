/-
  DedupArchive/Proofs/Files/Walking.lean
  ======================================
  **The way to a place.**

  A path leads somewhere if the file system takes it as it is written and every
  place it passes is a directory.  Then following it a step further is a look at
  one place.  Making directories makes such a way, and what leaves all
  directories in place leaves every way in place.
-/
import DedupArchive.Files.Tree

namespace DedupArchive

namespace Path

def Taken (p : Path) : Prop := p.refusal? = none ∧ p.any isTooLong = false

theorem exists_join (p : Path) : ∃ base, ∀ name, p.join name = base ++ [name] := by
  by_cases hslash : p.getLast? = some ""
  · exact ⟨p.dropLast, fun name => if_pos hslash⟩
  · exact ⟨p, fun name => if_neg hslash⟩

theorem join_append_singleton {p : Path} {last : String} (hlast : last ≠ "") (name : String) :
    join (p ++ [last]) name = p ++ [last] ++ [name] := by
  rw [join, if_neg]
  rw [List.getLast?_concat, Option.some.injEq]
  exact hlast

theorem trim_append_singleton {p : Path} {last : String} (hlast : last ≠ "") :
    trim (p ++ [last]) = p ++ [last] := by
  rw [trim, List.reverse_concat, List.dropWhile_cons_of_neg (by simpa using hlast),
    List.reverse_cons, List.reverse_reverse]

/-- No refusal says that something is missing. -/
theorem kind_of_refusal {p : Path} {e : IoError} (h : p.refusal? = some e) : e.kind ≠ .notFound := by
  rw [refusal?] at h
  split at h
  · cases h
    decide
  · split at h
    · cases h
      decide
    · cases h

end Path

namespace FileTree

variable {t t' : FileTree} {place q : Path} {names : List String}

/-! ### What a change leaves in place -/

theorem entry_eq (hplace : place ≠ []) : t.entry? place = t.entries[place]? := if_neg hplace

theorem entry_put {e : Entry} (hplace : place ≠ []) :
    FileTree.entry? (t.put place e) q = if place = q then some e else t.entry? q := by
  by_cases heq : place = q
  · subst heq
    rw [entry_eq hplace, if_pos rfl, put, Std.ExtTreeMap.getElem?_insert_self]
  · rw [if_neg heq]
    by_cases htop : q = []
    · rw [htop]
      rfl
    · rw [entry_eq htop, entry_eq htop, put, Std.ExtTreeMap.getElem?_insert,
        if_neg (fun h => heq (Std.LawfulEqCmp.eq_of_compare h))]

theorem entry_erase (hplace : place ≠ []) :
    entry? ⟨t.entries.erase place⟩ q = if place = q then none else t.entry? q := by
  by_cases heq : place = q
  · subst heq
    rw [entry_eq hplace, if_pos rfl, Std.ExtTreeMap.getElem?_erase_self]
  · rw [if_neg heq]
    by_cases htop : q = []
    · rw [htop]
      rfl
    · rw [entry_eq htop, entry_eq htop, Std.ExtTreeMap.getElem?_erase,
        if_neg (fun h => heq (Std.LawfulEqCmp.eq_of_compare h))]

def KeepsDirectories (t t' : FileTree) : Prop :=
  ∀ q, t.entry? q = some .directory → t'.entry? q = some .directory

theorem KeepsDirectories.refl (t : FileTree) : t.KeepsDirectories t := fun _ hq => hq

theorem KeepsDirectories.trans {t'' : FileTree} (h : t.KeepsDirectories t')
    (h' : t'.KeepsDirectories t'') : t.KeepsDirectories t'' := fun q hq => h' q (h q hq)

/-- A change at a place where no directory stands leaves all directories. -/
theorem keepsDirectories_of_change {e : Option Entry} (hplace : t.entry? place ≠ some .directory)
    (hchange : ∀ q, t'.entry? q = if place = q then e else t.entry? q) : t.KeepsDirectories t' := by
  intro q hq
  rw [hchange, if_neg, hq]
  rintro rfl
  exact hplace hq

/-! ### Ways -/

/-- Every place that the names pass is a directory, the last one too. -/
def Way (t : FileTree) : Path → List String → Prop
  | place, [] => t.entry? place = some .directory
  | place, name :: rest => t.entry? place = some .directory ∧ t.Way (Path.step place name) rest

theorem Way.keep (hkeeps : t.KeepsDirectories t') (h : t.Way place names) : t'.Way place names := by
  induction names generalizing place with
  | nil => exact hkeeps place h
  | cons name rest ih => exact ⟨hkeeps place h.1, ih h.2⟩

theorem Way.entry_last (h : t.Way place names) : t.entry? (names.foldl Path.step place) = some .directory := by
  induction names generalizing place with
  | nil => exact h
  | cons name rest ih => exact ih h.2

/-- Along a way only the length of a name can stop a walk. -/
theorem Way.walk_append (h : t.Way place names) (more : List String) :
    t.walk place (names ++ more) =
      if names.any Path.isTooLong then .error .nameTooLong
      else t.walk (names.foldl Path.step place) more := by
  induction names generalizing place with
  | nil => rfl
  | cons name rest ih =>
    obtain ⟨hplace, hrest⟩ := h
    rw [List.cons_append, walk, hplace, List.any_cons, List.foldl_cons]
    cases hlong : Path.isTooLong name with
    | true => rfl
    | false => exact ih hrest

/-- The names along a path, and the path as it is written, are taken and all that
    it passes are directories. -/
structure Leads (t : FileTree) (p : Path) : Prop where
  taken : p.Taken
  way : t.Way [] p

theorem Leads.keep {p : Path} (hkeeps : t.KeepsDirectories t') (h : t.Leads p) : t'.Leads p :=
  ⟨h.taken, h.way.keep hkeeps⟩

theorem Leads.walk_append {p : Path} (h : t.Leads p) (more : List String) :
    t.walk [] (p ++ more) = t.walk p.plain more := by
  rw [h.way.walk_append, h.taken.2, if_neg Bool.false_ne_true]
  rfl

theorem Leads.entry_plain {p : Path} (h : t.Leads p) : t.entry? p.plain = some .directory := h.way.entry_last

theorem Leads.walk {p : Path} (h : t.Leads p) : t.walk [] p = .ok (p.plain, .directory) := by
  have hwalk := h.walk_append []
  rw [List.append_nil] at hwalk
  rw [hwalk, FileTree.walk, h.entry_plain]

theorem Leads.locate {p : Path} (h : t.Leads p) : t.locate p = .ok (p.plain, .directory) := by
  rw [FileTree.locate, h.taken.1]
  exact h.walk

/-- A look at one name in a directory. -/
theorem Leads.locate_name {p : Path} {name : String} (h : t.Leads p)
    (htaken : Path.Taken (p ++ [name])) (hname : Path.step p.plain name = p.plain ++ [name]) :
    t.locate (p ++ [name]) =
      match t.entry? (p.plain ++ [name]) with
      | none => .error .noSuchFile
      | some e => .ok (p.plain ++ [name], e) := by
  have hshort : Path.isTooLong name = false := by
    have hany := htaken.2
    rw [List.any_append, Bool.or_eq_false_iff, List.any_cons, Bool.or_eq_false_iff] at hany
    exact hany.2.1
  rw [FileTree.locate, htaken.1, h.walk_append, FileTree.walk, h.entry_plain]
  simp only [hshort, Bool.false_eq_true, if_false, hname]
  cases hentry : t.entry? (p.plain ++ [name]) with
  | none => simp only [FileTree.walk, hentry]
  | some e => simp only [FileTree.walk, hentry]

/-- A walk that ends at a directory has passed directories only, by names that are taken. -/
theorem way_of_walk {q : Path} (h : t.walk place names = .ok (q, .directory)) :
    t.Way place names ∧ names.any Path.isTooLong = false := by
  induction names generalizing place with
  | nil =>
    rw [walk] at h
    split at h
    · cases h
    · rename_i e hentry
      cases h
      exact ⟨hentry, rfl⟩
  | cons name rest ih =>
    rw [walk] at h
    split at h
    · cases h
    · rename_i hentry
      split at h
      · cases h
      · rename_i hshort
        obtain ⟨hway, hrest⟩ := ih h
        exact ⟨⟨hentry, hway⟩, by rw [List.any_cons, hrest, Bool.eq_false_iff.mpr hshort]; rfl⟩
    · cases h

theorem leads_of_locate {p q : Path} (h : t.locate p = .ok (q, .directory)) : t.Leads p := by
  rw [FileTree.locate] at h
  split at h
  · cases h
  · rename_i hrefusal
    obtain ⟨hway, hshort⟩ := way_of_walk h
    exact ⟨⟨hrefusal, hshort⟩, hway⟩

theorem leads_of_names {p : Path} {names : List String} (h : t.names p = .ok names) : t.Leads p := by
  rw [FileTree.names, below] at h
  cases hlocate : t.locate p with
  | error e =>
    rw [hlocate] at h
    cases h
  | ok found =>
    obtain ⟨q, entry⟩ := found
    rw [hlocate] at h
    cases entry with
    | directory => exact leads_of_locate hlocate
    | file data => cases h
    | catalog rows => cases h

theorem exists_locate_of_bytesAt {p : Path} {data : Bytes} (h : t.bytesAt p = .ok data) :
    ∃ found, t.locate p = .ok found := by
  rw [bytesAt, find] at h
  cases hlocate : t.locate p with
  | error e =>
    rw [hlocate] at h
    cases h
  | ok found => exact ⟨found, rfl⟩

/-- What can be reached by one name more stands in the directory. -/
theorem Leads.entry_of_locate {p : Path} {name : String} (h : t.Leads p)
    (hname : Path.step p.plain name = p.plain ++ [name]) {found : Path × Entry}
    (hlocate : t.locate (p ++ [name]) = .ok found) : t.entry? (p.plain ++ [name]) = some found.2 := by
  rw [FileTree.locate] at hlocate
  split at hlocate
  · cases hlocate
  · rw [h.walk_append, FileTree.walk, h.entry_plain] at hlocate
    simp only [hname] at hlocate
    split at hlocate
    · cases hlocate
    · rw [FileTree.walk] at hlocate
      split at hlocate
      · cases hlocate
      · rename_i e hentry
        cases hlocate
        exact hentry

theorem locate_of_contains_false {p : Path} (habsent : t.contains p = .ok false) :
    ∃ e : IoError, t.locate p = .error e ∧ e.kind = .notFound := by
  rw [contains, find] at habsent
  cases hlocate : t.locate p with
  | ok found =>
    rw [hlocate] at habsent
    cases habsent
  | error e =>
    rw [hlocate] at habsent
    by_cases hkind : e.kind = .notFound
    · exact ⟨e, rfl, hkind⟩
    · simp only [if_neg hkind] at habsent
      cases habsent

/-- If a directory does not contain a name, the path to the name is taken and
    nothing stands there. -/
theorem Way.of_contains_false {p : Path} {name : String} (h : t.Way [] p)
    (hname : Path.step p.plain name = p.plain ++ [name]) (habsent : t.contains (p ++ [name]) = .ok false) :
    Path.Taken (p ++ [name]) ∧ t.entry? (p.plain ++ [name]) = none := by
  obtain ⟨e, hlocate, hkind⟩ := locate_of_contains_false habsent
  rw [locate] at hlocate
  cases hrefusal : Path.refusal? (p ++ [name]) with
  | some refusal =>
    rw [hrefusal] at hlocate
    cases hlocate
    exact absurd hkind (Path.kind_of_refusal hrefusal)
  | none =>
    simp only [hrefusal, h.walk_append] at hlocate
    have hplain : t.entry? (p.foldl Path.step []) = some .directory := h.entry_last
    cases hlong : p.any Path.isTooLong with
    | true =>
      rw [hlong, if_pos rfl] at hlocate
      cases hlocate
      cases hkind
    | false =>
      rw [hlong, if_neg Bool.false_ne_true, walk, hplain] at hlocate
      cases hlast : Path.isTooLong name with
      | true =>
        simp only [hlast, if_true] at hlocate
        cases hlocate
        cases hkind
      | false =>
        have hstep : Path.step (p.foldl Path.step []) name = p.plain ++ [name] := hname
        simp only [hlast, Bool.false_eq_true, if_false, hstep, walk] at hlocate
        have hany : (p ++ [name]).any Path.isTooLong = false := by
          rw [List.any_append, hlong, List.any_cons, hlast]
          rfl
        refine ⟨⟨hrefusal, hany⟩, ?_⟩
        cases hentry : t.entry? (p.plain ++ [name]) with
        | none => rfl
        | some e => rw [hentry] at hlocate; cases hlocate

/-! ### Making a way -/

theorem way_of_makeBelow {made : Bool} (hplace : t.entry? place = some .directory)
    (hmake : t.makeBelow place made names = (.ok (), t')) :
    t.KeepsDirectories t' ∧ t'.Way place names := by
  induction names generalizing t place made with
  | nil =>
    rw [makeBelow, Prod.mk.injEq] at hmake
    obtain ⟨-, rfl⟩ := hmake
    exact ⟨.refl t, hplace⟩
  | cons name rest ih =>
    rw [makeBelow] at hmake
    cases hnext : t.entry? (Path.step place name) with
    | none =>
      simp only [hnext] at hmake
      split at hmake
      · cases hmake
      · split at hmake
        · cases hmake
        · have htop : Path.step place name ≠ [] := by
            intro htop
            rw [htop] at hnext
            cases hnext
          have hput : t.KeepsDirectories (t.put (Path.step place name) .directory) :=
            keepsDirectories_of_change (by rw [hnext]; exact nofun) fun q => entry_put htop
          have hmade : FileTree.entry? (t.put (Path.step place name) .directory)
              (Path.step place name) = some .directory := by rw [entry_put htop, if_pos rfl]
          obtain ⟨hkeeps, hway⟩ := ih hmade hmake
          exact ⟨hput.trans hkeeps, hkeeps place (hput place hplace), hway⟩
    | some e =>
      cases e with
      | directory =>
        simp only [hnext] at hmake
        obtain ⟨hkeeps, hway⟩ := ih hnext hmake
        exact ⟨hkeeps, hkeeps place hplace, hway⟩
      | file data =>
        simp only [hnext] at hmake
        cases hmake
      | catalog rows =>
        simp only [hnext] at hmake
        cases hmake

theorem way_of_makeDirectories {p : Path} {last : String} (hlast : last ≠ "")
    (hmake : t.makeDirectories (p ++ [last]) = (.ok (), t')) :
    Path.refusal? (p ++ [last]) = none ∧ t.KeepsDirectories t' ∧ t'.Way [] (p ++ [last]) := by
  rw [makeDirectories, Path.trim_append_singleton hlast] at hmake
  cases hrefusal : Path.refusal? (p ++ [last]) with
  | some e =>
    simp only [hrefusal] at hmake
    cases hmake
  | none =>
    simp only [hrefusal] at hmake
    exact ⟨rfl, way_of_makeBelow rfl hmake⟩

/-! ### What is in a directory -/

theorem mem_belowPlace_iff {rest : Path} {e : Entry} (hrest : rest ≠ []) :
    (rest, e) ∈ t.belowPlace place ↔ t.entry? (place ++ rest) = some e := by
  have hplace : place ++ rest ≠ [] := List.append_ne_nil_of_right_ne_nil place hrest
  rw [belowPlace, List.mem_filterMap, entry_eq hplace]
  constructor
  · rintro ⟨⟨q, e'⟩, hmem, hsome⟩
    simp only [Option.ite_none_right_eq_some, Option.some.injEq, Prod.mk.injEq, Bool.and_eq_true,
      List.isPrefixOf_iff_prefix] at hsome
    obtain ⟨⟨⟨tail, rfl⟩, -⟩, hdrop, rfl⟩ := hsome
    rw [List.drop_left] at hdrop
    subst hdrop
    exact Std.ExtTreeMap.mem_toList_iff_getElem?_eq_some.mp hmem
  · intro hfound
    refine ⟨(place ++ rest, e), Std.ExtTreeMap.mem_toList_iff_getElem?_eq_some.mpr hfound, ?_⟩
    have hlonger : place.length < (place ++ rest).length := by
      rw [List.length_append]
      have := List.length_pos_iff.mpr hrest
      omega
    simp only [Option.ite_none_right_eq_some, Bool.and_eq_true, List.isPrefixOf_iff_prefix,
      decide_eq_true_eq, List.drop_left]
    exact ⟨⟨List.prefix_append place rest, hlonger⟩, trivial⟩

theorem belowPlace_eq_nil_iff : t.belowPlace place = [] ↔ ∀ rest ≠ [], t.entry? (place ++ rest) = none := by
  constructor
  · intro hnil rest hrest
    rw [Option.eq_none_iff_forall_ne_some]
    intro e he
    rw [← mem_belowPlace_iff hrest, hnil] at he
    cases he
  · intro hnone
    rw [List.eq_nil_iff_forall_not_mem]
    rintro ⟨rest, e⟩ hmem
    have hrest : rest ≠ [] := by
      rintro rfl
      rw [belowPlace, List.mem_filterMap] at hmem
      obtain ⟨⟨q, e'⟩, -, hsome⟩ := hmem
      simp only [Option.ite_none_right_eq_some, Option.some.injEq, Prod.mk.injEq, Bool.and_eq_true,
        decide_eq_true_eq, List.drop_eq_nil_iff] at hsome
      omega
    rw [mem_belowPlace_iff hrest, hnone rest hrest] at hmem
    cases hmem

theorem Leads.exists_names {p : Path} (h : t.Leads p) : ∃ names, t.names p = .ok names ∧
    ∀ name, name ∈ names ↔ t.entry? (p.plain ++ [name]) ≠ none := by
  rw [FileTree.names, below, h.locate]
  refine ⟨_, rfl, ?_⟩
  intro name
  rw [List.mem_filterMap, Option.ne_none_iff_exists']
  constructor
  · rintro ⟨⟨rest, e⟩, hmem, hsome⟩
    rcases rest with _ | ⟨first, _ | ⟨second, more⟩⟩
    · cases hsome
    · cases hsome
      exact ⟨e, (mem_belowPlace_iff (List.cons_ne_nil name [])).mp hmem⟩
    · cases hsome
  · rintro ⟨e, hfound⟩
    exact ⟨([name], e), (mem_belowPlace_iff (List.cons_ne_nil name [])).mpr hfound, rfl⟩

/-- Each name stands for one thing only. -/
theorem nodup_names {p : Path} (h : t.names p = .ok names) : names.Nodup := by
  rw [FileTree.names] at h
  split at h
  · cases h
  · rename_i entries hbelow
    cases h
    rw [below] at hbelow
    split at hbelow
    · cases hbelow
    · rename_i place _
      cases hbelow
      have hpaths : (t.belowPlace place).Pairwise fun x y => x.1 ≠ y.1 := by
        refine List.Pairwise.filterMap _ ?_ (Std.ExtTreeMap.distinct_keys_toList (t := t.entries))
        intro x y hxy x' hx' y' hy' heq
        simp only [Option.ite_none_right_eq_some, Bool.and_eq_true, List.isPrefixOf_iff_prefix,
          Option.some.injEq] at hx' hy'
        obtain ⟨⟨⟨restx, hrestx⟩, -⟩, rfl⟩ := hx'
        obtain ⟨⟨⟨resty, hresty⟩, -⟩, rfl⟩ := hy'
        rw [← hrestx, ← hresty, List.drop_left, List.drop_left] at heq
        subst heq
        rw [← hrestx, ← hresty] at hxy
        exact hxy Std.ReflCmp.compare_self
      refine hpaths.filterMap _ ?_
      rintro ⟨p, e⟩ ⟨p', e'⟩ hne name hname name' hname' rfl
      rcases p with _ | ⟨first, _ | _⟩
      · cases hname
      · rcases p' with _ | ⟨first', _ | _⟩
        · cases hname'
        · cases hname
          cases hname'
          exact hne rfl
        · cases hname'
      · cases hname
    · cases hbelow

end FileTree

end DedupArchive
