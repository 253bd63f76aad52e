/-
  DedupArchive/Proofs/Catalog/Transactions.lean
  =============================================
  **What is always true of the rows.**

  Each call of a transaction either changes rows within the rules of the tables or
  is refused and changes none.  A transaction that is dropped leaves the rows of
  its beginning.  So whatever is called, in whatever order, with arguments of any
  kind: the rows are consistent in between and at the end.

  Ids of removed archives are given again.  That this cannot hand old chunks to a
  new archive rests on the order in which an archive is removed, chunks first.
-/
import DedupArchive.Proofs.Catalog.Edits
import DedupArchive.Proofs.Catalog.Growth
import DedupArchive.Proofs.Catalog.Reachable
import DedupArchive.Proofs.Catalog.Removal

namespace DedupArchive

theorem isWord_signedCell (word : UInt64) : (signedCell word).isWord = true := by
  rw [signedCell, Cell.isWord_integer_iff]
  exact ⟨word.toInt64.le_toInt, word.toInt64.toInt_lt⟩

/-- Cells that are there and hold the same content are equal. -/
theorem Cell.equals_self {c : Cell} (h : c.isNull = false) : c.equals c = true := by
  rw [equals, h, same_refl]
  rfl

namespace Catalog

variable {c c' : Catalog} {id : Int}

/-! ### Changes that are not refused -/

theorem Lawful.insertArchive (h : c.Lawful) {name : String} (hinsert : c.insertArchive name = .ok (id, c')) :
    c'.Lawful := by
  obtain ⟨c₁, hadd, heq⟩ := bind_eq_ok_iff.mp hinsert
  cases heq
  exact h.addArchive rfl hadd

theorem Linked.insertArchive (h : c.Linked) {name : String} (hinsert : c.insertArchive name = .ok (id, c')) :
    c'.Linked := by
  obtain ⟨-, rfl⟩ := added_of_insertArchive hinsert
  intro r hr
  obtain ⟨a, ha, howner⟩ := h r hr
  exact ⟨a, List.mem_cons_of_mem _ ha, howner⟩

section InsertChunk

variable {digest : Digest} {offset length : UInt64}
  (hinsert : c.insertChunk id digest offset length = .ok c')

include hinsert

/-- A chunk is added as a row, beside an archive that has its id. -/
theorem addChunk_of_insertChunk :
    c.addChunk ⟨.integer id, digest.cell, signedCell offset, signedCell length⟩ = .ok c' ∧
      ∃ a ∈ c.archives, a.id = id := by
  obtain ⟨c₁, hadd, hinsert⟩ := bind_eq_ok_iff.mp hinsert
  split at hinsert
  · rename_i hany
    cases hinsert
    obtain ⟨a, ha, hid⟩ := List.any_eq_true.mp hany
    exact ⟨hadd, a, ha, beq_iff_eq.mp hid⟩
  · cases hinsert

theorem Lawful.insertChunk (h : c.Lawful) : c'.Lawful :=
  h.addChunk ⟨isWord_signedCell offset, isWord_signedCell length⟩ (addChunk_of_insertChunk hinsert).1

theorem Linked.insertChunk (h : c.Linked) : c'.Linked := by
  obtain ⟨hadd, a, ha, hid⟩ := addChunk_of_insertChunk hinsert
  obtain ⟨-, -, hadd⟩ := bind_eq_ok_iff.mp hadd
  obtain ⟨-, -, heq⟩ := bind_eq_ok_iff.mp hadd
  cases heq
  intro r hr
  rcases List.mem_cons.mp hr with rfl | hr
  · refine ⟨a, ha, ?_⟩
    rw [hid]
    exact Cell.equals_self rfl
  · exact h r hr

end InsertChunk

section Finalize

variable {length : UInt64} {digest : Digest} (hfinalize : c.finalize id length digest = .ok c')

include hfinalize

/-- The rows are those that were there, but for length and digest of one of them. -/
theorem rows_of_finalize : c'.chunks = c.chunks ∧
    c'.archives.map (fun r => (r.id, r.name)) = c.archives.map (fun r => (r.id, r.name)) ∧
      ∀ r ∈ c'.archives, r ∈ c.archives ∨ r.check = .ok () ∧ r.length = signedCell length := by
  obtain ⟨archives, hrows, heq⟩ := bind_eq_ok_iff.mp hfinalize
  cases heq
  refine ⟨rfl, ?_, ?_⟩
  · apply map_eq_of_mapM hrows
    intro r r' hrow
    split at hrow
    · obtain ⟨-, -, heq⟩ := bind_eq_ok_iff.mp hrow
      cases heq
      rfl
    · cases hrow
      rfl
  · intro r' hr'
    obtain ⟨r, hr, hrow⟩ := exists_row_of_mem hrows hr'
    split at hrow
    · obtain ⟨⟨⟩, hrule, heq⟩ := bind_eq_ok_iff.mp hrow
      cases heq
      exact Or.inr ⟨hrule, rfl⟩
    · cases hrow
      exact Or.inl hr

theorem Lawful.finalize (h : c.Lawful) : c'.Lawful := by
  obtain ⟨hchunks, hkeys, hrows⟩ := rows_of_finalize hfinalize
  -- the rules for two rows are about ids and names alone
  have hpairs (R : Int × Cell → Int × Cell → Prop)
      (hR : c.archives.Pairwise fun a b => R (a.id, a.name) (b.id, b.name)) :
      c'.archives.Pairwise fun a b => R (a.id, a.name) (b.id, b.name) := by
    rw [← List.pairwise_map, ← hkeys, List.pairwise_map] at hR
    exact hR
  constructor
  · intro r hr
    rcases hrows r hr with hr | ⟨hrule, -⟩
    · exact h.archive_rules r hr
    · exact hrule
  · rw [hchunks]
    exact h.chunk_rules
  · exact hpairs (fun a b => a.1 ≠ b.1) h.ids
  · exact hpairs (fun a b => a.2.equals b.2 = false) h.names
  · rw [hchunks]
    exact h.places
  · intro r hr
    rcases hrows r hr with hr | ⟨-, hlength⟩
    · exact h.archive_words r hr
    · rw [hlength]
      exact isWord_signedCell length
  · rw [hchunks]
    exact h.chunk_words

theorem Linked.finalize (h : c.Linked) : c'.Linked := by
  obtain ⟨hchunks, hkeys, -⟩ := rows_of_finalize hfinalize
  intro r hr
  rw [hchunks] at hr
  obtain ⟨a, ha, howner⟩ := h r hr
  have hkey : (a.id, a.name) ∈ c'.archives.map fun r => (r.id, r.name) := by
    rw [hkeys]
    exact List.mem_map.mpr ⟨a, ha, rfl⟩
  obtain ⟨a', ha', heq⟩ := List.mem_map.mp hkey
  refine ⟨a', ha', ?_⟩
  rw [(Prod.mk.inj heq).1]
  exact howner

end Finalize

/-! ### Removal in two steps -/

def removeChunks (c : Catalog) (id : Int) : Catalog :=
  { c with chunks := c.chunks.filter fun r => !r.archive.equals (.integer id) }

/-- Remove the row of an archive; refused while there are chunks of it. -/
def removeArchive (c : Catalog) (id : Int) : Except CatalogError Catalog :=
  if c.archives.any (·.id == id) && c.chunks.any (·.archive.equals (.integer id)) then .error .foreignKey
  else .ok { c with archives := c.archives.filter (·.id != id) }

/-- Chunks first, an archive can always be removed. -/
theorem removeArchive_removeChunks (c : Catalog) (id : Int) :
    (c.removeChunks id).removeArchive id = .ok (c.deleteArchive id) := by
  have hnone : (c.removeChunks id).chunks.any (·.archive.equals (.integer id)) = false := by
    rw [List.any_eq_false]
    intro r hr
    rw [removeChunks, List.mem_filter, Bool.not_eq_true'] at hr
    rw [hr.2]
    exact Bool.false_ne_true
  rw [removeArchive, hnone, Bool.and_false, if_neg Bool.false_ne_true]
  rfl

/-- The other way round, an archive that has chunks cannot. -/
theorem removeArchive_eq_error (h : c.Linked) {r : ChunkRow} (hr : r ∈ c.chunks)
    (howner : r.archive.equals (.integer id) = true) : c.removeArchive id = .error .foreignKey := by
  obtain ⟨a, ha, hequals⟩ := h r hr
  rw [removeArchive, if_pos]
  rw [Bool.and_eq_true, List.any_eq_true, List.any_eq_true]
  refine ⟨⟨a, ha, ?_⟩, r, hr, howner⟩
  rw [beq_iff_eq]
  exact Cell.eq_of_equals_integer hequals howner

/-! ### Consistent rows -/

/-- What the rules of the tables amount to, once each row can be read. -/
structure Consistent (c : Catalog) : Prop where
  ids : (c.archives.map (·.id)).Nodup
  names : (c.archives.map (·.name)).Nodup
  archives : ∀ r ∈ c.archives, (r.length = .null ∧ r.digest = .null) ∨
    ∃ (length : Nat) (digest : Digest), r.length = .integer length ∧ r.digest = digest.cell
  chunks : ∀ r ∈ c.chunks, ∃ (digest : Digest) (offset length : Nat), r.digest = digest.cell ∧
    r.offset = .integer offset ∧ r.length = .integer length ∧ 0 < length
  places : (c.chunks.map fun r => (r.archive, r.offset)).Nodup
  owners : ∀ r ∈ c.chunks, ∃ a ∈ c.archives, r.archive.equals (.integer a.id) = true

structure Kept (c : Catalog) : Prop where
  lawful : c.Lawful
  linked : c.Linked
  readable : c.Readable

/-- What a change makes of the rows when it is not refused. -/
inductive Allows (c : Catalog) : CatalogChange → Catalog → Prop
  | insertArchive {name : String} {id : Int} {c' : Catalog} :
    c.insertArchive name = .ok (id, c') → Allows c (.insertArchive name) c'
  | insertChunk {id : Int} {digest : Digest} {offset length : UInt64} {c' : Catalog} :
    c.insertChunk id digest offset length = .ok c' → Allows c (.insertChunk id digest offset length) c'
  | finalize {id : Int} {length : UInt64} {digest : Digest} {c' : Catalog} :
    c.finalize id length digest = .ok c' → Allows c (.finalize id length digest) c'
  | deleteArchive (id : Int) : Allows c (.deleteArchive id) (c.deleteArchive id)

theorem Lawful.allows (h : c.Lawful) {change : CatalogChange} (hallows : c.Allows change c') : c'.Lawful := by
  cases hallows with
  | insertArchive hinsert => exact h.insertArchive hinsert
  | insertChunk hinsert => exact h.insertChunk hinsert
  | finalize hfinalize => exact h.finalize hfinalize
  | deleteArchive id => exact h.deleteArchive id

/-- **One change.** -/
theorem Kept.allows (h : c.Kept) {change : CatalogChange} (hallows : c.Allows change c') : c'.Kept := by
  have hlawful := h.lawful.allows hallows
  cases hallows with
  | insertArchive hinsert => exact ⟨hlawful, h.linked.insertArchive hinsert, h.readable.insertArchive hinsert⟩
  | insertChunk hinsert => exact ⟨hlawful, h.linked.insertChunk hinsert, h.readable.insertChunk hinsert⟩
  | finalize hfinalize => exact ⟨hlawful, h.linked.finalize hfinalize, h.readable.finalize hfinalize⟩
  | deleteArchive id => exact ⟨hlawful, h.linked.deleteArchive id, h.readable.deleteArchive id⟩

theorem kept_empty : empty.Kept := ⟨lawful_empty, linked_empty, readable_empty⟩

theorem Kept.consistent (h : c.Kept) : c.Consistent where
  ids := h.lawful.ids_nodup
  names := h.lawful.names_nodup
  archives r hr := by
    rcases h.readable.archives r hr with ⟨id, name, rfl⟩ | ⟨a, rfl⟩
    · exact Or.inl ⟨rfl, rfl⟩
    · exact Or.inr ⟨a.length, a.digest, rfl, rfl⟩
  chunks r hr := by
    obtain ⟨row, hread⟩ := h.readable.chunks r hr
    obtain ⟨hdigest, hoffset, hlength⟩ := ChunkRow.toRecord_eq_ok_iff.mp hread
    obtain ⟨-, -, -, -, -, habove⟩ := ChunkRow.check_eq_ok_iff.mp (h.lawful.chunk_rules r hr)
    rw [hlength, Cell.aboveZero_integer_iff] at habove
    exact ⟨row.digest, row.offset, row.length, hdigest, hoffset, hlength, Int.natCast_pos.mp habove⟩
  places := by
    rw [List.Nodup, List.pairwise_map]
    -- cells that are not null are equal only to such that count as equal
    apply h.lawful.places.imp_of_mem
    intro r r' hr _ hapart heq
    obtain ⟨harchive, -, hoffset, -⟩ := ChunkRow.check_eq_ok_iff.mp (h.lawful.chunk_rules r hr)
    rw [← (Prod.mk.inj heq).1, ← (Prod.mk.inj heq).2, Cell.equals_self harchive,
      Cell.equals_self hoffset] at hapart
    cases hapart
  owners := h.linked

end Catalog

/-! ### Calls -/

inductive CatalogCall where
  | change (change : CatalogChange)
  | archiveId (name : String)
  | archiveDigests (id : Int)
  | referencedElsewhere (digest : Digest) (id : Int)

inductive CatalogReply where
  | inserted (result : Except CatalogError Int)
  | changed (result : Except CatalogError Unit)
  | found (id : Option Int)
  | digests (result : Except CatalogError (List Digest))
  | referenced (there : Bool)

def CatalogReply.error? : CatalogReply → Option CatalogError
  | .inserted (.error e) | .changed (.error e) | .digests (.error e) => some e
  | _ => none

namespace Transaction

def deleteInSteps (t : Transaction) (id : Int) : Except CatalogError Unit × Transaction :=
  t.change fun c => (c.removeChunks id).removeArchive id

def perform (t : Transaction) : CatalogCall → CatalogReply × Transaction
  | .change (.insertArchive name) => (.inserted (t.insertArchive name).1, (t.insertArchive name).2)
  | .change (.insertChunk id digest offset length) =>
    (.changed (t.insertChunk id digest offset length).1, (t.insertChunk id digest offset length).2)
  | .change (.finalize id length digest) =>
    (.changed (t.finalize id length digest).1, (t.finalize id length digest).2)
  | .change (.deleteArchive id) => (.changed (t.deleteInSteps id).1, (t.deleteInSteps id).2)
  | .archiveId name => (.found (t.current.archiveId? name), t)
  | .archiveDigests id => (.digests (t.current.archiveDigests id), t)
  | .referencedElsewhere digest id => (.referenced (t.current.referencedElsewhere digest id), t)

def performAll (t : Transaction) (calls : List CatalogCall) : Transaction :=
  calls.foldl (fun t call => (t.perform call).2) t

variable {t : Transaction}

theorem perform_deleteArchive (t : Transaction) (id : Int) :
    t.perform (.change (.deleteArchive id)) = (.changed (.ok ()), t.deleteArchive id) := by
  simp only [perform, deleteInSteps, change, Catalog.removeArchive_removeChunks]
  rfl

theorem change_cases (t : Transaction) (step : Catalog → Except CatalogError Catalog) :
    (∃ c, step t.current = .ok c ∧ t.change step = (.ok (), { t with current := c })) ∨
    ∃ e, step t.current = .error e ∧ t.change step = (.error e, t) := by
  cases hstep : step t.current with
  | ok c => exact Or.inl ⟨c, rfl, by rw [change, hstep]⟩
  | error e => exact Or.inr ⟨e, rfl, by rw [change, hstep]⟩

/-- **What a call can do.**  It makes a change that is not refused, or it leaves
    the transaction as it is. -/
theorem perform_cases (t : Transaction) (call : CatalogCall) :
    (∃ change c, call = .change change ∧ t.current.Allows change c ∧
      (t.perform call).1.error? = none ∧ (t.perform call).2 = { t with current := c }) ∨
    (t.perform call).2 = t := by
  cases call with
  | change change =>
    cases change with
    | insertArchive name =>
      cases hinsert : t.current.insertArchive name with
      | error e =>
        right
        simp only [perform, insertArchive, hinsert]
      | ok inserted =>
        left
        obtain ⟨id, c⟩ := inserted
        refine ⟨_, c, rfl, .insertArchive hinsert, ?_, ?_⟩
        · simp only [perform, insertArchive, hinsert, CatalogReply.error?]
        · simp only [perform, insertArchive, hinsert]
    | insertChunk id digest offset length =>
      rcases t.change_cases (·.insertChunk id digest offset length) with ⟨c, hinsert, heq⟩ | ⟨e, -, heq⟩
      · left
        refine ⟨_, c, rfl, .insertChunk hinsert, ?_, ?_⟩
        · rw [perform, insertChunk, heq]
          rfl
        · rw [perform, insertChunk, heq]
      · right
        rw [perform, insertChunk, heq]
    | finalize id length digest =>
      rcases t.change_cases (·.finalize id length digest) with ⟨c, hfinalize, heq⟩ | ⟨e, -, heq⟩
      · left
        refine ⟨_, c, rfl, .finalize hfinalize, ?_, ?_⟩
        · rw [perform, finalize, heq]
          rfl
        · rw [perform, finalize, heq]
      · right
        rw [perform, finalize, heq]
    | deleteArchive id =>
      left
      refine ⟨_, t.current.deleteArchive id, rfl, .deleteArchive id, ?_, ?_⟩
      · rw [perform_deleteArchive]
        rfl
      · rw [perform_deleteArchive]
        rfl
  | archiveId name => exact Or.inr rfl
  | archiveDigests id => exact Or.inr rfl
  | referencedElsewhere digest id => exact Or.inr rfl

theorem perform_of_error {call : CatalogCall} {e : CatalogError} (h : (t.perform call).1.error? = some e) :
    (t.perform call).2 = t := by
  rcases t.perform_cases call with ⟨change, c, -, -, hnone, -⟩ | hsame
  · rw [hnone] at h
    cases h
  · exact hsame

theorem before_perform (t : Transaction) (call : CatalogCall) : (t.perform call).2.before = t.before := by
  rcases t.perform_cases call with ⟨change, c, -, -, -, heq⟩ | hsame
  · rw [heq]
  · rw [hsame]

theorem before_performAll (t : Transaction) (calls : List CatalogCall) :
    (t.performAll calls).before = t.before := by
  induction calls generalizing t with
  | nil => rfl
  | cons call rest ih => exact (ih (t.perform call).2).trans (t.before_perform call)

section Keeping

variable {P : Catalog → Prop} {allowed : CatalogChange → Prop}
  (hstep : ∀ {c change c'}, P c → allowed change → c.Allows change c' → P c')

include hstep

/-- **One call.**  What every change of some kind keeps, a call of that kind keeps. -/
theorem perform_keeps (h : P t.current) {call : CatalogCall}
    (hcall : ∀ change, call = .change change → allowed change) : P (t.perform call).2.current := by
  rcases t.perform_cases call with ⟨change, c, hchange, hallows, -, heq⟩ | hsame
  · rw [heq]
    exact hstep h (hcall change hchange) hallows
  · rw [hsame]
    exact h

/-- **All calls.** -/
theorem performAll_keeps (h : P t.current) {calls : List CatalogCall}
    (hcalls : ∀ change, .change change ∈ calls → allowed change) : P (t.performAll calls).current := by
  induction calls generalizing t with
  | nil => exact h
  | cons call rest ih =>
    apply ih
    · apply perform_keeps hstep h
      intro change hchange
      exact hcalls change (by simp [hchange])
    · intro change hchange
      exact hcalls change (List.mem_cons_of_mem call hchange)

end Keeping

theorem unowned_of_inserted (h : t.current.Kept) {name : String} {id : Int}
    (hinsert : (t.perform (.change (.insertArchive name))).1 = .inserted (.ok id)) :
    ∀ r ∈ t.current.chunks, r.archive.equals (.integer id) = false := by
  rw [perform, CatalogReply.inserted.injEq, insertArchive] at hinsert
  split at hinsert
  · rename_i hadded
    cases hinsert
    rw [(Catalog.added_of_insertArchive hadded).1]
    exact h.linked.next_free
  · cases hinsert

end Transaction

/-! ### Transactions -/

structure Session where
  calls : List CatalogCall
  commits : Bool

namespace Catalog

def afterSession (c : Catalog) (session : Session) : Catalog :=
  let t := (Transaction.begin c).performAll session.calls
  if session.commits then t.commit else t.rollback

def afterSessions (sessions : List Session) : Catalog := sessions.foldl afterSession .empty

section Keeping

variable {P : Catalog → Prop} {allowed : CatalogChange → Prop}
  (hstep : ∀ {c change c'}, P c → allowed change → c.Allows change c' → P c')

include hstep

theorem afterSession_keeps {c : Catalog} (h : P c) {session : Session}
    (hsession : session.commits = true → ∀ change, .change change ∈ session.calls → allowed change) :
    P (c.afterSession session) := by
  unfold Catalog.afterSession
  split
  · rename_i hcommits
    exact Transaction.performAll_keeps hstep (t := .begin c) h (hsession hcommits)
  · simp only [Transaction.rollback, Transaction.before_performAll]
    exact h

/-- **All transactions.**  Of those that are dropped nothing is asked. -/
theorem foldl_afterSession_keeps {c : Catalog} (h : P c) {sessions : List Session}
    (hsessions : ∀ session ∈ sessions, session.commits = true →
      ∀ change, .change change ∈ session.calls → allowed change) :
    P (sessions.foldl Catalog.afterSession c) := by
  induction sessions generalizing c with
  | nil => exact h
  | cons session rest ih =>
    apply ih
    · exact afterSession_keeps hstep h (hsessions session List.mem_cons_self)
    · intro other hother
      exact hsessions other (List.mem_cons_of_mem session hother)

end Keeping

theorem kept_afterSessions (sessions : List Session) : (afterSessions sessions).Kept :=
  foldl_afterSession_keeps (fun h (_ : True) hallows => Kept.allows h hallows) kept_empty
    fun _ _ _ _ _ => trivial

def inProgress (sessions : List Session) (calls : List CatalogCall) : Transaction :=
  (Transaction.begin (afterSessions sessions)).performAll calls

/-- **The rows of a catalog.**  After any transactions, committed or dropped, the
    rows are consistent, and so they are after any calls of the next one.  There a
    call that fails changes nothing, a removal does not fail, a new archive owns no
    chunk that is there, and dropping the transaction leaves the rows of its beginning. -/
theorem consistent_transactions (sessions : List Session) (calls : List CatalogCall) :
    (afterSessions sessions).Consistent ∧
      let t := inProgress sessions calls
      t.current.Consistent ∧ t.rollback = afterSessions sessions ∧
      (∀ call e, (t.perform call).1.error? = some e → (t.perform call).2 = t) ∧
      (∀ id, t.perform (.change (.deleteArchive id)) = (.changed (.ok ()), t.deleteArchive id)) ∧
      ∀ name id, (t.perform (.change (.insertArchive name))).1 = .inserted (.ok id) →
        ∀ r ∈ t.current.chunks, r.archive.equals (.integer id) = false := by
  have hbefore := kept_afterSessions sessions
  have hkept : (inProgress sessions calls).current.Kept :=
    Transaction.performAll_keeps (fun h (_ : True) hallows => h.allows hallows) (t := .begin _) hbefore
      fun _ _ => trivial
  refine ⟨hbefore.consistent, ?_⟩
  intro t
  refine ⟨hkept.consistent, Transaction.before_performAll _ calls, ?_, ?_, ?_⟩
  · exact fun call e he => Transaction.perform_of_error he
  · exact t.perform_deleteArchive
  · exact fun name id hinsert => Transaction.unowned_of_inserted hkept hinsert

/-- An id is given again once its archive is removed or was never committed. -/
example :
    let a : Session := ⟨[.change (.insertArchive "a")], false⟩
    let b : Session := ⟨[.change (.insertArchive "b"), .change (.deleteArchive 1)], true⟩
    ((Transaction.begin (afterSessions [a, b])).perform (.change (.insertArchive "c"))).1 = .inserted (.ok 1) :=
  rfl

end Catalog

end DedupArchive
