/-
  DedupArchive/Digest/Blake3.lean
  ===============================
  **The BLAKE3 hash, unkeyed, with 32 bytes of output.**

  The input is a row of 1024-byte leaves, each a chain of up to sixteen 64-byte
  blocks.  Neighbouring leaves are joined pairwise into a binary tree whose left
  subtrees are complete, and the root node is compressed once more with the
  root flag.

  The hash is written as a fold: `Hasher.absorb` takes one byte, and `Hasher`
  holds the chaining values of the complete subtrees to the left (a binary
  counter, newest first) together with the open leaf.  A full block or leaf is
  closed only when a further byte arrives, because the last one of the input
  carries other flags.  Feeding two byte strings one after the other is
  therefore feeding their concatenation, by `List.foldl_append` alone.
-/
import DedupArchive.Bytes

namespace DedupArchive.Blake3

/-! ### Words and rows -/

/-- Four 32-bit words; the compression state is a square of four rows. -/
structure Row where
  w0 : UInt32
  w1 : UInt32
  w2 : UInt32
  w3 : UInt32
deriving DecidableEq, Repr

def rotateRight (x : UInt32) (n : UInt32) : UInt32 := (x >>> n) ||| (x <<< (32 - n))

namespace Row

def add (x y : Row) : Row := ⟨x.w0 + y.w0, x.w1 + y.w1, x.w2 + y.w2, x.w3 + y.w3⟩

def xor (x y : Row) : Row := ⟨x.w0 ^^^ y.w0, x.w1 ^^^ y.w1, x.w2 ^^^ y.w2, x.w3 ^^^ y.w3⟩

def rotate (x : Row) (n : UInt32) : Row :=
  ⟨rotateRight x.w0 n, rotateRight x.w1 n, rotateRight x.w2 n, rotateRight x.w3 n⟩

def turn (x : Row) : Row := ⟨x.w1, x.w2, x.w3, x.w0⟩

end Row

def wordBytes (w : UInt32) : Bytes :=
  [w.toUInt8, (w >>> 8).toUInt8, (w >>> 16).toUInt8, (w >>> 24).toUInt8]

def Row.bytes (x : Row) : Bytes :=
  wordBytes x.w0 ++ wordBytes x.w1 ++ wordBytes x.w2 ++ wordBytes x.w3

/-! ### Compression -/

/-- What one compression hands to the next: eight words. -/
structure ChainingValue where
  upper : Row
  lower : Row
deriving DecidableEq, Repr

def ChainingValue.bytes (v : ChainingValue) : Bytes := v.upper.bytes ++ v.lower.bytes

/-- The initial value: the fractional parts of the square roots of the first eight primes. -/
def initial : ChainingValue :=
  ⟨⟨0x6A09E667, 0xBB67AE85, 0x3C6EF372, 0xA54FF53A⟩,
    ⟨0x510E527F, 0x9B05688C, 0x1F83D9AB, 0x5BE0CD19⟩⟩

abbrev Message := Vector UInt32 16

def Message.permute (m : Message) : Message :=
  #v[m[2], m[6], m[3], m[10], m[7], m[0], m[4], m[13],
    m[1], m[11], m[12], m[5], m[9], m[14], m[15], m[8]]

structure Square where
  a : Row
  b : Row
  c : Row
  d : Row

def Square.mix (s : Square) (x y : Row) : Square :=
  let a := (s.a.add s.b).add x
  let d := (s.d.xor a).rotate 16
  let c := s.c.add d
  let b := (s.b.xor c).rotate 12
  let a := (a.add b).add y
  let d := (d.xor a).rotate 8
  let c := c.add d
  let b := (b.xor c).rotate 7
  ⟨a, b, c, d⟩

/-- One round: the columns, then the diagonals, which are the columns of the
    square whose rows are turned by nothing, one, two and three places. -/
def Square.round (s : Square) (m : Message) : Square :=
  let s := s.mix ⟨m[0], m[2], m[4], m[6]⟩ ⟨m[1], m[3], m[5], m[7]⟩
  let s : Square := ⟨s.a, s.b.turn, s.c.turn.turn, s.d.turn.turn.turn⟩
  let s := s.mix ⟨m[8], m[10], m[12], m[14]⟩ ⟨m[9], m[11], m[13], m[15]⟩
  ⟨s.a, s.b.turn.turn.turn, s.c.turn.turn, s.d.turn⟩

def Square.rounds : Nat → Square → Message → Square
  | 0, s, _ => s
  | n + 1, s, m => Square.rounds n (s.round m) m.permute

structure Node where
  input : ChainingValue
  block : Message
  counter : UInt64
  length : UInt32
  flags : UInt32

def leafStart : UInt32 := 1

def leafEnd : UInt32 := 2

def parentFlag : UInt32 := 4

def rootFlag : UInt32 := 8

/-- Compress a node: seven rounds, then the halves of the square folded onto each other. -/
def Node.chainingValue (n : Node) : ChainingValue :=
  let s : Square :=
    ⟨n.input.upper, n.input.lower, initial.upper,
      ⟨n.counter.toUInt32, (n.counter >>> 32).toUInt32, n.length, n.flags⟩⟩
  let s := s.rounds 7 n.block
  ⟨s.a.xor s.c, s.b.xor s.d⟩

def Node.output (n : Node) : Bytes :=
  { n with flags := n.flags ||| rootFlag, counter := 0 }.chainingValue.bytes

def parent (left right : ChainingValue) : Node where
  input := initial
  block := #v[left.upper.w0, left.upper.w1, left.upper.w2, left.upper.w3,
    left.lower.w0, left.lower.w1, left.lower.w2, left.lower.w3,
    right.upper.w0, right.upper.w1, right.upper.w2, right.upper.w3,
    right.lower.w0, right.lower.w1, right.lower.w2, right.lower.w3]
  counter := 0
  length := 64
  flags := parentFlag

/-- The words of a block of at most 64 bytes, filled up with zeros. -/
def messageOf (block : Array UInt8) : Message :=
  Vector.ofFn fun i =>
    let byte (j : Nat) : UInt32 := (block[4 * i.val + j]?.getD 0).toUInt32
    byte 0 ||| (byte 1 <<< 8) ||| (byte 2 <<< 16) ||| (byte 3 <<< 24)

/-! ### The hasher -/

/-- A hash in progress: the chaining values of the complete subtrees, newest and
    smallest first; what the closed blocks of the open leaf compress to; and its open
    block. -/
structure Hasher where
  subtrees : List ChainingValue
  leaves : Nat
  chain : ChainingValue
  blocks : Nat
  block : Array UInt8

def Hasher.start : Hasher := ⟨[], 0, initial, 0, #[]⟩

/-- The open block of the open leaf, with `flags` beside the leaf's own. -/
def Hasher.openNode (h : Hasher) (flags : UInt32) : Node where
  input := h.chain
  block := messageOf h.block
  counter := UInt64.ofNat h.leaves
  length := UInt32.ofNat h.block.size
  flags := flags ||| (if h.blocks = 0 then leafStart else 0)

/-- Add a closed leaf, the `count`-th, to the complete subtrees: while `count`
    is even, the newest subtree has a full left neighbour to be joined with. -/
def addSubtree (value : ChainingValue) (count : Nat) : List ChainingValue → List ChainingValue
  | [] => [value]
  | left :: rest =>
    if count % 2 = 0 then addSubtree (parent left value).chainingValue (count / 2) rest
    else value :: left :: rest

/-- Close the open block, and with the sixteenth block the open leaf. -/
def Hasher.closeBlock (h : Hasher) : Hasher :=
  if h.blocks = 15 then
    { subtrees := addSubtree (h.openNode leafEnd).chainingValue (h.leaves + 1) h.subtrees
      leaves := h.leaves + 1
      chain := initial
      blocks := 0
      block := #[] }
  else
    { h with chain := (h.openNode 0).chainingValue, blocks := h.blocks + 1, block := #[] }

def Hasher.absorb (h : Hasher) (byte : UInt8) : Hasher :=
  if h.block.size = 64 then
    let h := h.closeBlock
    { h with block := h.block.push byte }
  else
    { h with block := h.block.push byte }

def Hasher.feed (h : Hasher) (data : Bytes) : Hasher := data.foldl Hasher.absorb h

/-- The root above an open node: each complete subtree stands to its left. -/
def rootOf (node : Node) : List ChainingValue → Node
  | [] => node
  | left :: rest => rootOf (parent left node.chainingValue) rest

def Hasher.output (h : Hasher) : Bytes := (rootOf (h.openNode leafEnd) h.subtrees).output

def hash (data : Bytes) : Bytes := (Hasher.start.feed data).output

theorem Hasher.feed_append (h : Hasher) (x y : Bytes) : h.feed (x ++ y) = (h.feed x).feed y :=
  List.foldl_append ..

theorem ChainingValue.length_bytes (v : ChainingValue) : v.bytes.length = 32 := rfl

theorem Hasher.length_output (h : Hasher) : h.output.length = 32 := rfl

end DedupArchive.Blake3
