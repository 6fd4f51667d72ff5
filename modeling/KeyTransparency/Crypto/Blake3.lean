import KeyTransparency.Bytes

/-!
The BLAKE3 hash of a byte string, with 32 bytes of output.

The input is cut into chunks of 1024 bytes and a chunk into blocks of 64.  A chunk chains the
compressions of its blocks; the chunks are the leaves of a binary tree whose left subtree holds the
largest power of two of chunks below the total.  The last compression of all carries the flag
`root`, so a `Pending` compression is finished either as an inner chaining value or as the output.
-/

namespace KeyTransparency.Blake3

/-! ## Compression -/

/-- Four words worked on side by side. -/
structure Row where
  (w0 w1 w2 w3 : UInt32)

namespace Row

@[inline] def zip (f : UInt32 → UInt32 → UInt32) (x y : Row) : Row :=
  ⟨f x.w0 y.w0, f x.w1 y.w1, f x.w2 y.w2, f x.w3 y.w3⟩

@[inline] def rotateBits (n : UInt32) (x : Row) : Row :=
  let rot (w : UInt32) := (w >>> n) ||| (w <<< (32 - n))
  ⟨rot x.w0, rot x.w1, rot x.w2, rot x.w3⟩

instance : Add Row := ⟨zip (· + ·)⟩
instance : XorOp Row := ⟨zip (· ^^^ ·)⟩

def shift1 (x : Row) : Row := ⟨x.w1, x.w2, x.w3, x.w0⟩
def shift2 (x : Row) : Row := ⟨x.w2, x.w3, x.w0, x.w1⟩
def shift3 (x : Row) : Row := ⟨x.w3, x.w0, x.w1, x.w2⟩

def toBytes (x : Row) : Bytes :=
  [x.w0, x.w1, x.w2, x.w3].flatMap fun w => Bytes.littleEndian 4 w.toNat

end Row

structure State where
  (a b c d : Row)

/-- The quarter round on all four columns. -/
def State.mix (s : State) (x y : Row) : State :=
  let a := s.a + s.b + x
  let d := (s.d ^^^ a).rotateBits 16
  let c := s.c + d
  let b := (s.b ^^^ c).rotateBits 12
  let a := a + b + y
  let d := (d ^^^ a).rotateBits 8
  let c := c + d
  let b := (b ^^^ c).rotateBits 7
  ⟨a, b, c, d⟩

/-- Brings the diagonals into the columns. -/
def State.diagonals (s : State) : State := ⟨s.a, s.b.shift1, s.c.shift2, s.d.shift3⟩

def State.columns (s : State) : State := ⟨s.a, s.b.shift3, s.c.shift2, s.d.shift1⟩

abbrev Block := Vector UInt32 16

/-- The order in which a round takes the words of the round before. -/
def schedule : Vector (Fin 16) 16 := #v[2, 6, 3, 10, 7, 0, 4, 13, 1, 11, 12, 5, 9, 14, 15, 8]

def Block.permute (m : Block) : Block := schedule.map fun i => m[i]

def State.round (s : State) (m : Block) : State :=
  let s := s.mix ⟨m[0], m[2], m[4], m[6]⟩ ⟨m[1], m[3], m[5], m[7]⟩
  (s.diagonals.mix ⟨m[8], m[10], m[12], m[14]⟩ ⟨m[9], m[11], m[13], m[15]⟩).columns

/-- The state is the schedule's first block, permuted once more for every further round. -/
def State.rounds : (n : Nat) → State → Block → State
  | 0, s, _ => s
  | n + 1, s, m => (s.round m).rounds n m.permute

structure ChainingValue where
  (low high : Row)

def iv : ChainingValue :=
  ⟨⟨0x6a09e667, 0xbb67ae85, 0x3c6ef372, 0xa54ff53a⟩, ⟨0x510e527f, 0x9b05688c, 0x1f83d9ab, 0x5be0cd19⟩⟩

def chunkStart : UInt32 := 1
def chunkEnd : UInt32 := 2
def parent : UInt32 := 4
def root : UInt32 := 8

/-- A compression that waits to learn whether it is the last. -/
structure Pending where
  input : ChainingValue
  block : Block
  counter : UInt64
  length : UInt32
  flags : UInt32

def Pending.finish (p : Pending) (extra : UInt32) : ChainingValue :=
  let tail : Row :=
    ⟨p.counter.toUInt32, (p.counter >>> 32).toUInt32, p.length, p.flags ||| extra⟩
  let s := State.rounds 7 ⟨p.input.low, p.input.high, iv.low, tail⟩ p.block
  ⟨s.a ^^^ s.c, s.b ^^^ s.d⟩

/-! ## Chunks and the tree over them -/

/-- The words of at most 64 bytes, filled up with zeros. -/
def blockOfBytes (bytes : Bytes) : Block :=
  let words := ((bytes ++ List.replicate (64 - bytes.length) 0) |> Bytes.pieces 4).toArray
  Vector.ofFn fun i => UInt32.ofNat (Bytes.ofLittleEndian (words.getD i []))

/-- Chains the blocks of one chunk; `start` is set for its first block only. -/
def chainBlocks (index : Nat) (value : ChainingValue) (start : UInt32) : List Bytes → Pending
  | [] => ⟨value, blockOfBytes [], UInt64.ofNat index, 0, start ||| chunkEnd⟩
  | [b] => ⟨value, blockOfBytes b, UInt64.ofNat index, UInt32.ofNat b.length, start ||| chunkEnd⟩
  | b :: rest =>
    let link : Pending := ⟨value, blockOfBytes b, UInt64.ofNat index, UInt32.ofNat b.length, start⟩
    chainBlocks index (link.finish 0) 0 rest

def chunk (index : Nat) (bytes : Bytes) : Pending :=
  chainBlocks index iv chunkStart (Bytes.pieces 64 bytes)

def join (left right : ChainingValue) : Pending :=
  let words (r : Row) := #[r.w0, r.w1, r.w2, r.w3]
  let all := words left.low ++ words left.high ++ words right.low ++ words right.high
  ⟨iv, Vector.ofFn fun i => all.getD i 0, 0, 64, parent⟩

/-- The tree over chunks `index`, `index + 1`, …; `fuel` is at least their number. -/
def tree : (fuel : Nat) → (index : Nat) → List Bytes → Pending
  | _, index, [] => chunk index []
  | _, index, [c] => chunk index c
  | 0, index, c :: _ => chunk index c
  | fuel + 1, index, chunks =>
    let k := 1 <<< Nat.log2 (chunks.length - 1)
    join ((tree fuel index (chunks.take k)).finish 0) ((tree fuel (index + k) (chunks.drop k)).finish 0)

def digest (bytes : Bytes) : Bytes :=
  let chunks := Bytes.pieces 1024 bytes
  let value := (tree chunks.length 0 chunks).finish root
  value.low.toBytes ++ value.high.toBytes

@[simp] theorem Row.length_toBytes (x : Row) : x.toBytes.length = 16 := by
  simp [toBytes]

@[simp] theorem length_digest (bytes : Bytes) : (digest bytes).length = 32 := by
  simp [digest]

end KeyTransparency.Blake3
