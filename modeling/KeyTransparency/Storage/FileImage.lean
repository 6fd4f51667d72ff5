import KeyTransparency.Bytes

/-!
The content of a file that is written piecewise.

A file is its size and the pieces written to it, the newest first; a byte is what the newest piece
over it says, and zero where nothing was ever written.
-/

namespace KeyTransparency

structure FileImage where
  size : Nat
  pieces : List (Nat × Array UInt8)
deriving DecidableEq

namespace FileImage

def empty : FileImage := ⟨0, []⟩

instance : Inhabited FileImage := ⟨empty⟩

/-- The most bytes in a file, which has fewer than 2^32 blocks of 4096 bytes.  Places behind it can be
neither sought nor written. -/
def sizeLimit : Nat := (UInt32.size - 1) * 4096

/-- The byte that a piece has at a place of the file. -/
def pieceAt? (place : Nat) (piece : Nat × Array UInt8) : Option UInt8 :=
  if piece.1 ≤ place then piece.2[place - piece.1]? else none

def byteAt (file : FileImage) (place : Nat) : UInt8 :=
  (file.pieces.findSome? (pieceAt? place)).getD 0

/-- Writes at any place, also behind the end. -/
def write (file : FileImage) (offset : Nat) (bytes : Bytes) : FileImage :=
  if bytes.isEmpty then file
  else ⟨max file.size (offset + bytes.length), (offset, bytes.toArray) :: file.pieces⟩

def ofBytes (bytes : Bytes) : FileImage := empty.write 0 bytes

/-- `n` bytes from `offset` on; bytes behind the end cannot be read. -/
def read? (file : FileImage) (offset n : Nat) : Option Bytes :=
  if n = 0 then some []
  else if offset + n ≤ file.size then
    some ((List.range n).map fun i => file.byteAt (offset + i))
  else none

def toBytes (file : FileImage) : Bytes := (file.read? 0 file.size).getD []

/-! ## Lemmas -/

theorem byteAt_write (file : FileImage) (offset : Nat) (bytes : Bytes) (place : Nat) :
    (file.write offset bytes).byteAt place =
      if offset ≤ place ∧ place < offset + bytes.length then bytes.getD (place - offset) 0
      else file.byteAt place := by
  unfold write
  cases bytes with
  | nil =>
    have outside : ¬ (offset ≤ place ∧ place < offset + ([] : Bytes).length) := by
      rw [List.length_nil]
      omega
    rw [if_neg outside, if_pos List.isEmpty_nil]
  | cons b rest =>
    simp only [List.isEmpty_cons, Bool.false_eq_true, if_false, byteAt, List.findSome?_cons, pieceAt?]
    by_cases h : offset ≤ place
    · by_cases h' : place < offset + (b :: rest).length
      · have hlt : place - offset < (b :: rest).length := by omega
        have inside : place < offset + (rest.length + 1) := by simpa using h'
        simp [h, inside, List.getElem?_eq_getElem hlt]
      · have hge : (b :: rest).length ≤ place - offset := by omega
        have outside : ¬ place < offset + (rest.length + 1) := by simpa using h'
        simp [h, outside, List.getElem?_eq_none hge]
    · simp [h]

end FileImage

end KeyTransparency
