import KeyTransparency.Storage.XxHash
import KeyTransparency.Storage.Zstd.Header

/-!
Zstandard frames and which of them are accepted.

A reader gets its input in pieces and hands out content in smaller ones.  A short frame that it sees
whole is read at once, and then its blocks may be of any size; every other frame is read block by
block, with a window of limited size that no block exceeds.
-/

namespace KeyTransparency.Zstd

/-! ## Limits -/

def blockLimit : Nat := 128 * 1024

/-- A block has its size, its kind and the mark of the last one in front. -/
def blockHeaderSize : Nat := 3

/-- The largest window a reader sets up. -/
def windowLimit : Nat := 128 * 1024 * 1024 + 1

/-- What a reader sees of its input at a time. -/
def inputPiece : Nat := blockLimit + blockHeaderSize

/-- What a reader hands out of the content at a time. -/
def outputPiece : Nat := 8 * 1024

/-! ## The parts of a frame -/

inductive Block
  | raw (content : Bytes)
  | run (byte : UInt8) (size : Nat)

namespace Block

def size : Block → Nat
  | raw content => content.length
  | run _ size => size

def content : Block → Bytes
  | raw content => content
  | run byte size => List.replicate size byte

/-- The bytes a block takes up in its frame. -/
def storedSize : Block → Nat
  | raw content => blockHeaderSize + content.length
  | run .. => blockHeaderSize + 1

def isEmptyRaw : Block → Bool
  | raw content => content.isEmpty
  | run .. => false

end Block

structure Frame where
  header : Header
  blocks : List Block
  checksum : Option Nat

namespace Frame

/-- The bytes a frame takes up. -/
def storedSize (frame : Frame) : Nat :=
  frame.blocks.foldl (· + ·.storedSize) (frame.header.storedSize + if frame.checksum.isSome then 4 else 0)

def size (frame : Frame) : Nat := frame.blocks.foldl (· + ·.size) 0

def content (frame : Frame) : Bytes := (frame.blocks.map Block.content).flatten

/-! ## Which frames are accepted -/

/-- Whether a frame at an offset of the input is read at once: it says how much it holds, that can be
handed out at a time, and it lies in one piece of the input. -/
def isReadAtOnce (frame : Frame) (offset : Nat) : Bool :=
  frame.header.contentSize.any (· ≤ outputPiece) &&
    offset % inputPiece + frame.storedSize ≤ inputPiece

/-- A frame holds what it says. -/
def sizeIsRight (frame : Frame) : Bool := frame.header.contentSize.all (· = frame.size)

/-- The window that is set up to read a frame block by block. -/
def window (frame : Frame) : Nat := max windowUnit frame.header.window

def largestBlock (frame : Frame) : Nat := min frame.header.window blockLimit

end Frame

/-- Room for a block that comes in and for content that waits to be handed out. -/
structure Room where
  input : Nat
  output : Nat

namespace Room

/-- Content is written around in a window and two blocks with some to spare, or takes less if it is
known to be less. -/
def needed (window largestBlock : Nat) (contentSize : Option Nat) : Room :=
  let ring := window + 2 * largestBlock + 64
  ⟨max largestBlock 4, contentSize.elim ring (min ring)⟩

def ofFrame (frame : Frame) : Room :=
  needed frame.window frame.largestBlock frame.header.contentSize

/-- What a frame to be skipped needs, which has no blocks and counts as content. -/
def ofSkipped (size : Nat) : Room := needed windowUnit 0 (some size)

def total (room : Room) : Nat := room.input + room.output

end Room

/-- The room a reader has set up for the frames that it does not read at once, and how many of them
in a row, up to the last, needed a third of it at most. -/
structure Space where
  room : Room
  spared : Nat

namespace Space

def empty : Space := ⟨⟨0, 0⟩, 0⟩

/-- So many frames that need a third of the room have it given up. -/
def patience : Nat := 128

/-- The room of the frames before serves the next one too, unless it is too small or has been too
large for too long. -/
def settle (space : Space) (needed : Room) : Space :=
  let spared := if 3 * needed.total ≤ space.room.total then space.spared + 1 else 0
  if space.room.input < needed.input ∨ space.room.output < needed.output ∨ patience ≤ spared then
    ⟨needed, spared⟩
  else ⟨space.room, spared⟩

end Space

namespace Frame

/-- Whether the size that a frame announces is kept, as far as a reader looks: after an empty raw
block at the end it is not compared with the content, which must only find space. -/
def sizeIsKept (frame : Frame) (space : Space) : Bool :=
  if frame.blocks.getLast?.any Block.isEmptyRaw then
    frame.header.contentSize.all fun size =>
      frame.size ≤ space.room.output || space.room.output < size
  else frame.sizeIsRight

/-- Whether a frame can be read block by block. -/
def isReadInBlocks (frame : Frame) (space : Space) : Bool :=
  frame.window ≤ windowLimit &&
    frame.blocks.all (fun block =>
      block.size ≤ frame.largestBlock &&
        block.storedSize ≤ blockHeaderSize + frame.largestBlock) &&
    frame.sizeIsKept space

def contentIf (frame : Frame) (isRead : Bool) : Option Bytes :=
  if isRead then
    let content := frame.content
    if frame.checksum.all (· = (XxHash.digest content).toNat % UInt32.size) then some content
    else none
  else none

/-- The content of a frame at an offset of the input, and the space there is after it. -/
def read? (frame : Frame) (offset : Nat) (space : Space) : Option (Bytes × Space) :=
  if frame.isReadAtOnce offset then
    (frame.contentIf frame.sizeIsRight).map fun content => (content, space)
  else
    let space := space.settle (.ofFrame frame)
    (frame.contentIf (frame.isReadInBlocks space)).map fun content => (content, space)

end Frame

end KeyTransparency.Zstd
