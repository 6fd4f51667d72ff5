import KeyTransparency.Storage.Zstd.EarlyFrame

/-!
Zstandard frames made of raw and run-length blocks, as they are stored.

`compress` writes one frame of raw blocks.  `decompress?` reads any number of frames, one at least,
and puts their contents one after the other; frames to be skipped hold nothing, and frames of earlier
formats may stand among the others.  Blocks with entropy coding are not written and not read.
-/

namespace KeyTransparency.Zstd

def magic : Nat := 0xFD2FB528

/-! ## Writing -/

/-- Raw blocks, the last one marked. -/
def rawBlocks : List Bytes → Bytes
  | [] => []
  | [last] => Bytes.littleEndian blockHeaderSize (8 * last.length + 1) ++ last
  | block :: more =>
    Bytes.littleEndian blockHeaderSize (8 * block.length) ++ block ++ rawBlocks more

/-- One frame with a window of 2 MiB that does not say how much it holds. -/
def compress (content : Bytes) : Bytes :=
  Bytes.littleEndian 4 magic ++ 0 :: 0x58 :: rawBlocks (Bytes.pieces blockLimit content)

/-! ## Reading -/

/-- A block, and whether it is the last one. -/
def block? (bytes : Bytes) : Option ((Block × Bool) × Bytes) := do
  let (head, rest) ← number? blockHeaderSize bytes
  let size := head / 8
  let (block, rest) ←
    match head / 2 % 4 with
    | 0 => (Bytes.split? size rest).map fun (content, rest) => (Block.raw content, rest)
    | 1 => (Bytes.split? 1 rest).map fun (bytes, rest) => (Block.run (bytes.headD 0) size, rest)
    | _ => none
  some ((block, head % 2 = 1), rest)

/-- The blocks of a frame behind those already read, the newest of them first. -/
def blocks? : (fuel : Nat) → List Block → Bytes → Option (List Block × Bytes)
  | 0, _, _ => none
  | fuel + 1, before, bytes => do
    let ((block, isLast), rest) ← block? bytes
    if isLast then some ((block :: before).reverse, rest) else blocks? fuel (block :: before) rest

/-- A frame after its magic number. -/
def frame? (fuel : Nat) (bytes : Bytes) : Option (Frame × Bytes) := do
  let (header, rest) ← header? bytes
  let (blocks, rest) ← blocks? fuel [] rest
  if header.hasChecksum then
    let (checksum, rest) ← number? 4 rest
    some (⟨header, blocks, some checksum⟩, rest)
  else some (⟨header, blocks, none⟩, rest)

/-- What a reader keeps from one frame to the next. -/
structure Progress where
  /-- The bytes read. -/
  offset : Nat
  space : Space
  early : EarlySpace

namespace Progress

def start : Progress := ⟨0, .empty, .empty⟩

/-- The content of the next frame and what follows it. -/
def next? (progress : Progress) (fuel : Nat) (bytes : Bytes) :
    Option (Bytes × Progress × Bytes) := do
  let (mark, rest) ← number? 4 bytes
  if 0x184D2A50 ≤ mark ∧ mark ≤ 0x184D2A5F then
    let (size, rest) ← number? 4 rest
    let (_, rest) ← Bytes.split? size rest
    some ([],
      { progress with
        offset := progress.offset + 8 + size
        space := progress.space.settle (.ofSkipped size) }, rest)
  else if mark = magic then
    let (frame, rest) ← frame? fuel rest
    let (content, space) ← frame.read? progress.offset progress.space
    some (content, { progress with offset := progress.offset + frame.storedSize, space }, rest)
  else
    let format ← earlyFormat? mark
    let (frame, rest) ← earlyFrame? fuel format rest
    let (content, early) ← frame.read? progress.offset progress.early
    some (content, { progress with offset := progress.offset + frame.storedSize, early }, rest)

end Progress

/-- Reads the frames.  What was read before them is given, the newest first. -/
def frames? : (fuel : Nat) → Progress → List Bytes → Bytes → Option Bytes
  | 0, _, _, _ => none
  | fuel + 1, progress, before, bytes => do
    let (content, progress, rest) ← progress.next? fuel bytes
    if rest.isEmpty then some (content :: before).reverse.flatten
    else frames? fuel progress (content :: before) rest

def decompress? (bytes : Bytes) : Option Bytes := frames? (bytes.length + 1) .start [] bytes

end KeyTransparency.Zstd
