/-
  DedupArchive/Digest/Basic.lean
  ==============================
  **Digests: thirty-two bytes that name content.**

  A blob is stored under the digest of its bytes and a member is checked against
  the digest of the whole.  Digests are ordered by their bytes, first byte
  first.  `Running` is a digest in progress that also counts what it has seen,
  so its count is the current position in a member.
-/
import DedupArchive.Digest.Blake3

namespace DedupArchive

def digestSize : Nat := 32

structure Digest where
  bytes : Bytes
  length_bytes : bytes.length = digestSize
deriving DecidableEq, Repr

namespace Digest

def ofBytes? (bytes : Bytes) : Option Digest :=
  if h : bytes.length = digestSize then some ⟨bytes, h⟩ else none

def of (data : Bytes) : Digest := ⟨Blake3.hash data, Blake3.Hasher.length_output _⟩

theorem ext_bytes {d e : Digest} (h : d.bytes = e.bytes) : d = e := by
  cases d; cases e; simp_all

/-! ### Order -/

instance : Ord Digest := ⟨fun d e => compare d.bytes e.bytes⟩

theorem compare_eq (d e : Digest) : compare d e = compare d.bytes e.bytes := rfl

instance : Std.TransOrd Digest where
  eq_swap {d e} := @Std.OrientedCmp.eq_swap Bytes compare inferInstance d.bytes e.bytes
  isLE_trans {d e f} := @Std.TransCmp.isLE_trans Bytes compare inferInstance d.bytes e.bytes f.bytes

instance : Std.LawfulEqOrd Digest where
  compare_self {d} := @Std.ReflCmp.compare_self Bytes compare inferInstance d.bytes
  eq_of_compare h := ext_bytes (Std.LawfulEqOrd.eq_of_compare h)

/-! ### Digests in progress -/

structure Running where
  hasher : Blake3.Hasher
  length : Nat

namespace Running

def start : Running := ⟨.start, 0⟩

def feed (r : Running) (data : Bytes) : Running := ⟨r.hasher.feed data, r.length + data.length⟩

def isEmpty (r : Running) : Bool := r.length == 0

/-- The digest of everything taken so far. -/
def digest (r : Running) : Digest := ⟨r.hasher.output, r.hasher.length_output⟩

theorem feed_append (r : Running) (x y : Bytes) : r.feed (x ++ y) = (r.feed x).feed y := by
  simp [feed, Blake3.Hasher.feed_append, Nat.add_assoc]

/-- A digest in progress that has taken `data` is the digest of `data`. -/
theorem digest_start_feed (data : Bytes) : (start.feed data).digest = Digest.of data := rfl

end Running

end Digest

end DedupArchive
