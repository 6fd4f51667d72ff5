import KeyTransparency.Bytes

/-!
The headers of Zstandard frames.

A header gives the window, which is how far back a block may refer, and it may give the size of the
content and say that a checksum follows it.
-/

namespace KeyTransparency.Zstd

/-- The smallest window a reader sets up. -/
def windowUnit : Nat := 1024

structure Header where
  /-- The bytes the header takes up, with the magic number. -/
  storedSize : Nat
  window : Nat
  contentSize : Option Nat
  hasChecksum : Bool

def number? (width : Nat) (bytes : Bytes) : Option (Nat × Bytes) :=
  (Bytes.split? width bytes).map fun (digits, rest) => (Bytes.ofLittleEndian digits, rest)

/-- The window given by its exponent and mantissa. -/
def windowOf (descriptor : Nat) : Nat :=
  let unit := windowUnit <<< (descriptor / 8)
  unit + unit / 8 * (descriptor % 8)

/-- Exponents of windows are below this one. -/
def exponentLimit : Nat := 22

/-- The size of the content as it is written in so many bytes; eight times the greatest byte stands
for an unknown size. -/
def contentSizeOf (width size : Nat) : Option Nat :=
  if width = 0 ∨ (width = 8 ∧ size + 1 = UInt64.size) then none
  else some (if width = 2 then size + 256 else size)

/-- A frame's header after the magic number.  Frames that need a dictionary are refused.  A frame of a
single segment is its own window. -/
def header? (bytes : Bytes) : Option (Header × Bytes) := do
  let (descriptor, rest) ← number? 1 bytes
  let single := descriptor.testBit 5
  let windowWidth := if single then 0 else 1
  let (window, rest) ← number? windowWidth rest
  let dictionaryWidth := match descriptor % 4 with | 3 => 4 | n => n
  let (dictionary, rest) ← number? dictionaryWidth rest
  let sizeWidth := match descriptor / 64 with | 0 => 1 - windowWidth | n => 1 <<< n
  let (size, rest) ← number? sizeWidth rest
  let contentSize := contentSizeOf sizeWidth size
  if descriptor.testBit 3 ∨ dictionary ≠ 0 ∨ exponentLimit ≤ window / 8 then none
  else
    some (
      { storedSize := 5 + windowWidth + dictionaryWidth + sizeWidth
        window := if single then contentSize.getD size else windowOf window
        contentSize
        hasChecksum := descriptor.testBit 2 }, rest)

end KeyTransparency.Zstd
