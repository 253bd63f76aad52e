/-
  DedupArchive/Proofs/Store/Refusing.lean
  =======================================
  **A directory that is refused is left alone.**

  Making or opening a store begins with a look at the directory, and only this
  look refuses it.  What comes after it writes, and fails for other reasons: a
  directory cannot be made, a file cannot be written, a catalog cannot be opened.
  So every refusal is told by the tree as it is, and leaves it so.
-/
import DedupArchive.Proofs.Store.Layout

namespace DedupArchive

namespace StoreError

def IsRefusal : StoreError → Prop
  | .notAStore _ _ | .chunking (.invalidParams _) => True
  | _ => False

end StoreError

/-! ### What a descriptor is refused for -/

namespace Descriptor

variable {t : FileTree} {root : Path}

def Lacks (t : FileTree) (root : Path) (name : String) : Prop :=
  ∃ e : IoError, t.textAt ((folder root).join name) = .error e ∧ e.kind = .notFound

def Says (t : FileTree) (root : Path) (name text : String) : Prop :=
  ∃ written, readPart t root name = .ok written ∧ Text.trim written = text

/-- Why a descriptor is refused: its parts are read in turn, up to the first that
    is missing or not as it should be. -/
inductive Refuses (t : FileTree) (root : Path) : Refusal → Prop where
  | noKind (h : Lacks t root "name") : Refuses t root (.missing "format/name")
  | otherKind {kind : String} (h : Says t root "name" kind) (hother : kind ≠ storeKind) :
    Refuses t root (.otherKind kind)
  | noVersion (hkind : Says t root "name" storeKind) (h : Lacks t root "version") :
    Refuses t root (.missing "format/version")
  | otherVersion {version : String} (hkind : Says t root "name" storeKind)
      (h : Says t root "version" version) (hother : version ≠ toString storeVersion) :
    Refuses t root (.otherVersion version)
  | noChunking (hkind : Says t root "name" storeKind)
      (hversion : Says t root "version" (toString storeVersion)) (h : Lacks t root "chunking") :
    Refuses t root (.missing "format/chunking")
  | unreadableParams {text : String} (hkind : Says t root "name" storeKind)
      (hversion : Says t root "version" (toString storeVersion))
      (h : readPart t root "chunking" = .ok text) (hread : Params.ofJson? text = none) :
    Refuses t root .unreadableParams
  | invalidParams {text : String} {p : Params} {e : ParamsError}
      (hkind : Says t root "name" storeKind) (hversion : Says t root "version" (toString storeVersion))
      (h : readPart t root "chunking" = .ok text) (hread : Params.ofJson? text = some p)
      (hinvalid : p.validate = .error e) :
    Refuses t root (.invalidParams (.invalidParams e))

theorem readPart_of_lacks {name : String} (h : Lacks t root name) :
    readPart t root name = .error (.notAStore root.text (.missing s!"format/{name}")) := by
  obtain ⟨e, htext, hkind⟩ := h
  rw [readPart, htext]
  simp only [hkind, if_true]

theorem lacks_of_readPart {name : String} {e : StoreError} (h : readPart t root name = .error e)
    (he : e.IsRefusal) : e = .notAStore root.text (.missing s!"format/{name}") ∧ Lacks t root name := by
  rw [readPart] at h
  cases htext : t.textAt ((folder root).join name) with
  | ok text =>
    rw [htext] at h
    cases h
  | error cause =>
    rw [htext] at h
    by_cases hkind : cause.kind = .notFound
    · simp only [hkind, if_true] at h
      cases h
      exact ⟨rfl, cause, htext, hkind⟩
    · simp only [hkind, if_false] at h
      cases h
      exact he.elim

theorem read_of_refuses {reason : Refusal} (h : Refuses t root reason) :
    read t root = .error (.notAStore root.text reason) := by
  cases h with
  | noKind h => simp only [read, readPart_of_lacks h, bind, Except.bind]; rfl
  | otherKind h hother =>
    obtain ⟨kind, hkind, rfl⟩ := h
    simp only [read, hkind, bind, Except.bind, if_pos hother]
  | noVersion hkind h =>
    obtain ⟨kind, hkind, hsays⟩ := hkind
    simp only [read, hkind, readPart_of_lacks h, bind, Except.bind, hsays, ne_eq, not_true_eq_false, if_false]
    rfl
  | otherVersion hkind h hother =>
    obtain ⟨kind, hkind, hsays⟩ := hkind
    obtain ⟨version, hversion, rfl⟩ := h
    simp only [read, hkind, hversion, bind, Except.bind, hsays, ne_eq, not_true_eq_false, if_false,
      if_pos hother]
  | noChunking hkind hversion h =>
    obtain ⟨kind, hkind, hsays⟩ := hkind
    obtain ⟨version, hversion, hsays'⟩ := hversion
    simp only [read, hkind, hversion, readPart_of_lacks h, bind, Except.bind, hsays, hsays', ne_eq,
      not_true_eq_false, if_false]
    rfl
  | unreadableParams hkind hversion h hread =>
    obtain ⟨kind, hkind, hsays⟩ := hkind
    obtain ⟨version, hversion, hsays'⟩ := hversion
    simp only [read, hkind, hversion, h, hread, bind, Except.bind, hsays, hsays', ne_eq,
      not_true_eq_false, if_false]
  | invalidParams hkind hversion h hread hinvalid =>
    obtain ⟨kind, hkind, hsays⟩ := hkind
    obtain ⟨version, hversion, hsays'⟩ := hversion
    simp only [read, hkind, hversion, h, hread, hinvalid, bind, Except.bind, hsays, hsays', ne_eq,
      not_true_eq_false, if_false]

theorem refuses_of_read {e : StoreError} (h : read t root = .error e) (he : e.IsRefusal) :
    ∃ reason, e = .notAStore root.text reason ∧ Refuses t root reason := by
  simp only [read, bind, Except.bind] at h
  cases hkind : readPart t root "name" with
  | error cause =>
    simp only [hkind] at h
    cases h
    obtain ⟨rfl, hlacks⟩ := lacks_of_readPart hkind he
    exact ⟨_, rfl, .noKind hlacks⟩
  | ok kind =>
    simp only [hkind] at h
    split at h
    · rename_i hother
      cases h
      exact ⟨_, rfl, .otherKind ⟨kind, hkind, rfl⟩ hother⟩
    · rename_i hsays
      have hkind : Says t root "name" storeKind := ⟨kind, hkind, not_not.mp hsays⟩
      cases hversion : readPart t root "version" with
      | error cause =>
        simp only [hversion] at h
        cases h
        obtain ⟨rfl, hlacks⟩ := lacks_of_readPart hversion he
        exact ⟨_, rfl, .noVersion hkind hlacks⟩
      | ok version =>
        simp only [hversion] at h
        split at h
        · rename_i hother
          cases h
          exact ⟨_, rfl, .otherVersion hkind ⟨version, hversion, rfl⟩ hother⟩
        · rename_i hsays'
          have hversion : Says t root "version" (toString storeVersion) :=
            ⟨version, hversion, not_not.mp hsays'⟩
          cases hchunking : readPart t root "chunking" with
          | error cause =>
            simp only [hchunking] at h
            cases h
            obtain ⟨rfl, hlacks⟩ := lacks_of_readPart hchunking he
            exact ⟨_, rfl, .noChunking hkind hversion hlacks⟩
          | ok text =>
            simp only [hchunking] at h
            split at h
            · rename_i hread
              cases h
              exact ⟨_, rfl, .unreadableParams hkind hversion hchunking hread⟩
            · rename_i q hread
              split at h
              · rename_i cause hinvalid
                cases h
                exact ⟨_, rfl, .invalidParams hkind hversion hchunking hread hinvalid⟩
              · cases h

end Descriptor

/-! ### Making and opening -/

namespace Home

/-- An attempt to make a store of a directory, or to open the store in it. -/
inductive Attempt where
  | make (p : Params)
  | reopen
  | openOrMake (p : Params)

def Attempt.perform (t : FileTree) (root : Path) : Attempt → Except StoreError Home × FileTree
  | .make p => create t root p
  | .reopen => Home.open t root
  | .openOrMake p => openOrCreate t root p

/-- When an attempt is refused, and for what. -/
inductive Attempt.Refused (t : FileTree) (root : Path) : Attempt → StoreError → Prop where
  | invalidParams {p : Params} {e : ParamsError} (h : p.validate = .error e) :
    Refused t root (.make p) (.chunking (.invalidParams e))
  | occupied {p : Params} (hvalid : p.validate = .ok ()) (hthere : t.reaches root = true)
      (h : t.isDirectory root = false) : Refused t root (.make p) (.notAStore root.text .notADirectory)
  | alreadyAStore {p : Params} (hvalid : p.validate = .ok ())
      (hfree : t.reaches root = true → t.isDirectory root = true) (h : Descriptor.isThere t root = true) :
    Refused t root (.make p) (.notAStore root.text .alreadyAStore)
  | notADirectory (h : t.isDirectory root = false) :
    Refused t root .reopen (.notAStore root.text .notADirectory)
  | descriptor {reason : Refusal} (hdirectory : t.isDirectory root = true)
      (h : Descriptor.Refuses t root reason) : Refused t root .reopen (.notAStore root.text reason)
  | noCatalog {p : Params} (hdirectory : t.isDirectory root = true)
      (hread : Descriptor.read t root = .ok p) (h : t.isFile (catalogPath root) = false) :
    Refused t root .reopen (.notAStore root.text (.missing catalogFile))
  | opening {p : Params} {e : StoreError} (hthere : Descriptor.isThere t root = true)
      (h : Refused t root .reopen e) : Refused t root (.openOrMake p) e
  | making {p : Params} {e : StoreError} (hnone : Descriptor.isThere t root = false)
      (h : Refused t root (.make p) e) : Refused t root (.openOrMake p) e

variable {t t' : FileTree} {root : Path} {p : Params} {e : StoreError}

theorem isFree_iff :
    (t.reaches root && !t.isDirectory root) = false ↔ (t.reaches root = true → t.isDirectory root = true) := by
  cases t.reaches root <;> cases t.isDirectory root <;> decide

/-- A look at the tree is all that a refusal takes. -/
theorem Attempt.Refused.perform_eq {attempt : Attempt} (h : attempt.Refused t root e) :
    attempt.perform t root = (.error e, t) := by
  induction h with
  | invalidParams h => simp [perform, create, h]
  | occupied hvalid hthere h => simp [perform, create, hvalid, hthere, h]
  | alreadyAStore hvalid hfree h => simp [perform, create, hvalid, isFree_iff.mpr hfree, h]
  | notADirectory h => simp [perform, Home.open, h]
  | descriptor hdirectory h => simp [perform, Home.open, hdirectory, Descriptor.read_of_refuses h]
  | noCatalog hdirectory hread h => simp [perform, Home.open, hdirectory, hread, h]
  | opening hthere _ ih => simpa [perform, openOrCreate, hthere] using ih
  | making hnone _ ih => simpa [perform, openOrCreate, hnone] using ih

/-! ### What comes after the look -/

theorem not_isRefusal_of_openParts (h : openParts t root = (.error e, t')) : ¬ e.IsRefusal := by
  rw [openParts] at h
  split at h
  · cases h
    exact id
  · split at h
    · cases h
      exact id
    · cases h

theorem not_isRefusal_of_writeFiles {parts : List (String × String)}
    (h : Descriptor.writeFiles t root parts = (.error e, t')) : ¬ e.IsRefusal := by
  induction parts generalizing t with
  | nil => cases h
  | cons part rest ih =>
    rw [Descriptor.writeFiles] at h
    split at h
    · cases h
      exact id
    · exact ih h

theorem not_isRefusal_of_write (h : Descriptor.write t root p = (.error e, t')) : ¬ e.IsRefusal := by
  rw [Descriptor.write] at h
  split at h
  · cases h
    exact id
  · exact not_isRefusal_of_writeFiles h

def establish (t : FileTree) (root : Path) (p : Params) : Except StoreError Home × FileTree :=
  match t.makeDirectories root with
  | (.error e, t) => (.error (.io e), t)
  | (.ok (), t) =>
    match openParts t root with
    | (.error e, t) => (.error e, t)
    | (.ok (), t) =>
      match Descriptor.write t root p with
      | (.error e, t) => (.error e, t)
      | (.ok (), t) => (.ok (fresh root p), t)

theorem not_isRefusal_of_establish (h : establish t root p = (.error e, t')) : ¬ e.IsRefusal := by
  rw [establish] at h
  split at h
  · cases h
    exact id
  · split at h
    · rename_i hparts
      cases h
      exact not_isRefusal_of_openParts hparts
    · split at h
      · rename_i hwrite
        cases h
        exact not_isRefusal_of_write hwrite
      · cases h

theorem create_cases (t : FileTree) (root : Path) (p : Params) :
    (∃ e, Attempt.Refused t root (.make p) e) ∨
      p.validate = .ok () ∧ (t.reaches root = true → t.isDirectory root = true) ∧
        Descriptor.isThere t root = false ∧ create t root p = establish t root p := by
  cases hvalid : p.validate with
  | error cause => exact Or.inl ⟨_, .invalidParams hvalid⟩
  | ok =>
    by_cases hfree : t.reaches root = true → t.isDirectory root = true
    · cases hthere : Descriptor.isThere t root with
      | true => exact Or.inl ⟨_, .alreadyAStore hvalid hfree hthere⟩
      | false =>
        refine Or.inr ⟨rfl, hfree, rfl, ?_⟩
        simp only [create, hvalid, isFree_iff.mpr hfree, hthere, Bool.false_eq_true, if_false]
        rfl
    · simp only [not_forall, Bool.not_eq_true] at hfree
      obtain ⟨hthere, hfile⟩ := hfree
      exact Or.inl ⟨_, .occupied hvalid hthere hfile⟩

namespace Attempt

section Error

variable (he : e.IsRefusal)

include he

theorem refused_of_create (h : (create t root p).1 = .error e) : Refused t root (.make p) e := by
  rcases create_cases t root p with ⟨cause, hrefused⟩ | ⟨-, -, -, hestablish⟩
  · have hperform : create t root p = (.error cause, t) := hrefused.perform_eq
    rw [hperform] at h
    cases h
    exact hrefused
  · rw [hestablish] at h
    exact absurd he (not_isRefusal_of_establish (Prod.ext h rfl))

theorem refused_of_open (h : (Home.open t root).1 = .error e) : Refused t root .reopen e := by
  rw [Home.open] at h
  cases hdirectory : t.isDirectory root with
  | false =>
    simp only [hdirectory, Bool.not_false, if_true] at h
    cases h
    exact .notADirectory hdirectory
  | true =>
    simp only [hdirectory, Bool.not_true, Bool.false_eq_true, if_false] at h
    cases hread : Descriptor.read t root with
    | error cause =>
      simp only [hread] at h
      cases h
      obtain ⟨reason, rfl, hrefuses⟩ := Descriptor.refuses_of_read hread he
      exact .descriptor hdirectory hrefuses
    | ok q =>
      simp only [hread] at h
      cases hfile : t.isFile (catalogPath root) with
      | false =>
        simp only [hfile, Bool.not_false, if_true] at h
        cases h
        exact .noCatalog hdirectory hread hfile
      | true =>
        simp only [hfile, Bool.not_true, Bool.false_eq_true, if_false] at h
        split at h
        · rename_i hparts
          cases h
          exact absurd he (not_isRefusal_of_openParts hparts)
        · cases h

/-- A refusal comes of the look, and of nothing that is done after it. -/
theorem refused_of_perform {attempt : Attempt} (h : (attempt.perform t root).1 = .error e) :
    attempt.Refused t root e := by
  cases attempt with
  | make p => exact refused_of_create he h
  | reopen => exact refused_of_open he h
  | openOrMake p =>
    rw [perform, openOrCreate] at h
    cases hthere : Descriptor.isThere t root with
    | true =>
      rw [hthere, if_pos rfl] at h
      exact .opening hthere (refused_of_open he h)
    | false =>
      rw [hthere, if_neg Bool.false_ne_true] at h
      exact .making hthere (refused_of_create he h)

end Error

end Attempt

/-- **Refused directories.**  Whatever lies in the tree, an attempt to make or to
    open a store is refused for what the tree and the parameters say beforehand,
    and a refusal leaves the tree as it is. -/
theorem refused_leaves_tree (attempt : Attempt) (t : FileTree) (root : Path) {e : StoreError}
    (he : e.IsRefusal) :
    ((attempt.perform t root).1 = .error e ↔ attempt.Refused t root e) ∧
      ((attempt.perform t root).1 = .error e → (attempt.perform t root).2 = t) := by
  have hiff : (attempt.perform t root).1 = .error e ↔ attempt.Refused t root e :=
    ⟨Attempt.refused_of_perform he, fun h => congrArg Prod.fst h.perform_eq⟩
  refine ⟨hiff, ?_⟩
  intro h
  exact congrArg Prod.snd (hiff.mp h).perform_eq

def laterStore : FileTree :=
  (((FileTree.ofDirectory "s").put ["s", "format"] .directory).put ["s", "format", "name"]
    (.file (Bytes.ofText "chunkar\n"))).put ["s", "format", "version"] (.file (Bytes.ofText "2\n"))

/-- A store of a later version is not made one of this version. -/
theorem refused_leaves_tree_laterStore :
    ((Attempt.openOrMake .standard).perform laterStore ["s"]).1 =
        .error (.notAStore "s" (.otherVersion "2")) ∧
      ((Attempt.openOrMake .standard).perform laterStore ["s"]).2 = laterStore := by
  have hkind : Descriptor.Says laterStore ["s"] "name" storeKind :=
    ⟨"chunkar\n", by decide +kernel, by decide +kernel⟩
  have hversion : Descriptor.Says laterStore ["s"] "version" "2" :=
    ⟨"2\n", by decide +kernel, by decide +kernel⟩
  have hrefused : (Attempt.openOrMake .standard).Refused laterStore ["s"]
      (.notAStore "s" (.otherVersion "2")) :=
    .opening (by decide +kernel) (.descriptor (by decide +kernel) (.otherVersion hkind hversion (by decide)))
  obtain ⟨hiff, htree⟩ := refused_leaves_tree (.openOrMake .standard) laterStore ["s"]
    (e := .notAStore "s" (.otherVersion "2")) trivial
  have hperform := hiff.mpr hrefused
  exact ⟨hperform, htree hperform⟩

end Home

end DedupArchive
