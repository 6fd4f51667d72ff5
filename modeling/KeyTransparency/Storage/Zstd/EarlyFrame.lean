import KeyTransparency.Storage.Zstd.Frame

/-!
Frames of the formats before the present one.

Formats 4 to 7 can still be read.  A block begins with its kind and its size, and the end of a frame
is a block of its own; runs are not read.  Content goes into a buffer from its start on, and again
from its start where another block might not fit, so a block is bounded by the room that is left.
-/

namespace KeyTransparency.Zstd

structure EarlyFrame where
  format : Nat
  header : Header
  blocks : List Bytes
  /-- The checksum, if there is one to compare. -/
  checksum : Option Nat

/-! ## Reading the parts -/

/-- The format that a magic number stands for. -/
def earlyFormat? (mark : Nat) : Option Nat :=
  if 0xFD2FB524 ≤ mark ∧ mark ≤ 0xFD2FB527 then some (mark % 16) else none

/-- The largest window of a frame of an early format. -/
def earlyWindowLimit : Nat := 128 * 1024 * 1024

/-- The header of a frame of format 7 is written like the present one, but the window is kept in 32
bits. -/
def format7Header? (bytes : Bytes) : Option (Header × Bytes) := do
  let (header, rest) ← header? bytes
  let window := max windowUnit (header.window % UInt32.size)
  if earlyWindowLimit < window then none else some ({ header with window }, rest)

/-- The header of a frame of format 6: four bits are the window's exponent and two give the width of
a size, which does not matter. -/
def format6Header? (bytes : Bytes) : Option (Header × Bytes) := do
  let (descriptor, rest) ← number? 1 bytes
  let sizeWidth := match descriptor / 64 with | 3 => 8 | n => n
  let (_, rest) ← number? sizeWidth rest
  if descriptor.testBit 5 then none
  else some (⟨5 + sizeWidth, 4 * windowUnit <<< (descriptor % 16), none, false⟩, rest)

/-- The header of a frame of format 4 or 5, which is the window's exponent. -/
def format5Header? (bytes : Bytes) : Option (Header × Bytes) := do
  let (descriptor, rest) ← number? 1 bytes
  if 16 ≤ descriptor then none
  else some (⟨5, 2 * windowUnit <<< descriptor, none, false⟩, rest)

/-- A header after the magic number of its format. -/
def earlyHeader? (format : Nat) (bytes : Bytes) : Option (Header × Bytes) :=
  match format with
  | 7 => format7Header? bytes
  | 6 => format6Header? bytes
  | _ => format5Header? bytes

/-- The blocks up to the end of a frame, behind those already read, the newest of them first.  An
end has 22 bits for a checksum.  A block of no bytes is an end too, without any. -/
def earlyBlocks? :
    (fuel : Nat) → List Bytes → Bytes → Option ((List Bytes × Option Nat) × Bytes)
  | 0, _, _ => none
  | fuel + 1, before, bytes => do
    let (head, rest) ← Bytes.split? blockHeaderSize bytes
    let head := Bytes.ofBigEndian head
    let kind := head >>> 22
    let size := head % (1 <<< 19)
    if kind = 3 then some ((before.reverse, some (head % (1 <<< 22))), rest)
    else if kind = 2 then none
    else if size = 0 then some ((before.reverse, none), rest)
    else if kind = 0 then none
    else
      let (content, rest) ← Bytes.split? size rest
      earlyBlocks? fuel (content :: before) rest

/-- A frame after its magic number. -/
def earlyFrame? (fuel format : Nat) (bytes : Bytes) : Option (EarlyFrame × Bytes) := do
  let (header, rest) ← earlyHeader? format bytes
  let ((blocks, mark), rest) ← earlyBlocks? fuel [] rest
  some (⟨format, header, blocks, if header.hasChecksum then mark else none⟩, rest)

/-! ## Which frames are accepted -/

/-- The room set up for frames of one format, which grows from frame to frame and is given up for
another format. -/
structure EarlySpace where
  format : Nat
  room : Room

namespace EarlyFrame

/-- The bytes a frame takes up. -/
def storedSize (frame : EarlyFrame) : Nat :=
  frame.blocks.foldl (fun size block => size + blockHeaderSize + block.length)
    (frame.header.storedSize + blockHeaderSize)

/-- Where this much is left behind a block, the next one goes there. -/
def largestBlock (frame : EarlyFrame) : Nat :=
  if frame.format < 6 then blockLimit else min frame.header.window blockLimit

def room (frame : EarlyFrame) : Room :=
  ⟨frame.largestBlock,
    if frame.format < 6 then frame.header.window
    else frame.header.window + frame.largestBlock + 16⟩

/-- Whether blocks find room.  A block goes through the input's room unless it lies whole in the
piece of the input that its header ends in, or in the next if that is at its end. -/
def haveRoom (room : Room) (largestBlock : Nat) : (offset start : Nat) → List Bytes → Bool
  | _, _, [] => true
  | offset, start, block :: more =>
    let offset := offset + blockHeaderSize
    let size := block.length
    let filled := start + size
    (offset % inputPiece + size ≤ inputPiece || size ≤ room.input) && filled ≤ room.output &&
      haveRoom room largestBlock (offset + size)
        (if room.output < filled + largestBlock then 0 else filled) more

/-- A format is known by what is seen of a frame at first: the magic number and one byte. -/
def isKnown (offset : Nat) : Bool := offset % inputPiece + 5 ≤ inputPiece

/-- The part of a checksum that is stored. -/
def storedPart (checksum : UInt64) : Nat := (checksum >>> 11).toNat % (1 <<< 22)

end EarlyFrame

namespace EarlySpace

def empty : EarlySpace := ⟨0, ⟨0, 0⟩⟩

def settle (space : EarlySpace) (frame : EarlyFrame) : EarlySpace :=
  let needed := frame.room
  if space.format = frame.format then
    ⟨frame.format, ⟨max space.room.input needed.input, max space.room.output needed.output⟩⟩
  else ⟨frame.format, needed⟩

end EarlySpace

/-- The content of a frame at an offset of the input, and the space there is after it. -/
def EarlyFrame.read? (frame : EarlyFrame) (offset : Nat) (space : EarlySpace) :
    Option (Bytes × EarlySpace) :=
  let space := space.settle frame
  let blocksAt := offset + frame.header.storedSize
  let content := frame.blocks.flatten
  if isKnown offset && haveRoom space.room frame.largestBlock blocksAt 0 frame.blocks &&
      frame.checksum.all (· = storedPart (XxHash.digest content)) then
    some (content, space)
  else none

end KeyTransparency.Zstd
