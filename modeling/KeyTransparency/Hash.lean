import KeyTransparency.Crypto.Blake3

/-!
Commitments: 32-byte BLAKE3 hashes and the byte strings they are taken of.

A commitment to several parts hashes `preimage domain parts`: one byte for the domain, then each
part behind its length in eight bytes.  Keeping the preimage a definition of its own lets a
statement about proofs name the two byte strings of a collision.
-/

namespace KeyTransparency

structure Hash where
  bytes : Bytes
  length_bytes : bytes.length = 32
deriving DecidableEq

/-- What a commitment is to; no two kinds share a preimage. -/
inductive Domain
  | trieLeaf | trieInternal | logLeaf | logNode | forestNode | content | chain | identifier
deriving DecidableEq, Repr

def Domain.tag : Domain → UInt8
  | .trieLeaf => 1
  | .trieInternal => 2
  | .logLeaf => 3
  | .logNode => 4
  | .forestNode => 5
  | .content => 6
  | .chain => 7
  | .identifier => 8

namespace Hash

def zero : Hash := ⟨List.replicate 32 0, by simp⟩

instance : Inhabited Hash := ⟨zero⟩

def digest (data : Bytes) : Hash := ⟨Blake3.digest data, Blake3.length_digest data⟩

/-- A part behind its length, so that the parts can be told apart again. -/
def framed (part : Bytes) : Bytes := Bytes.littleEndian 8 part.length ++ part

def preimage (domain : Domain) (parts : List Bytes) : Bytes :=
  domain.tag :: parts.flatMap framed

def ofParts (domain : Domain) (parts : List Bytes) : Hash := digest (preimage domain parts)

def ofBytes? (bytes : Bytes) : Option Hash :=
  if h : bytes.length = 32 then some ⟨bytes, h⟩ else none

/-! ## Hexadecimal text -/

def toHex (h : Hash) : String := Bytes.toHex h.bytes

/-- The first seven digits. -/
def short (h : Hash) : String := String.ofList (h.toHex.toList.take 7)

/-- How a hash is shown in diagnostics. -/
def brief (h : Hash) : String := "Hash(" ++ h.short ++ ")"

/-- Why a text is not a hash. -/
inductive HexFault
  | oddLength
  | invalidCharacter (byte : UInt8) (index : Nat)
  | wrongLength
deriving DecidableEq, Repr

/-- The character of code `byte` in single quotes, controls and blanks escaped. -/
def quotedCharacter (byte : UInt8) : String :=
  let inside :=
    if byte = 0 then "\\0"
    else if byte = 9 then "\\t"
    else if byte = 10 then "\\n"
    else if byte = 13 then "\\r"
    else if byte = 39 then "\\'"
    else if byte = 92 then "\\\\"
    else if byte < 32 ∨ (127 ≤ byte ∧ byte ≤ 160) ∨ byte = 173 then
      "\\u\x7b" ++ String.ofList (Nat.toDigits 16 byte.toNat) ++ "\x7d"
    else String.singleton (Char.ofNat byte.toNat)
  "'" ++ inside ++ "'"

def HexFault.message : HexFault → String
  | oddLength => "Odd number of digits"
  | invalidCharacter byte index =>
    "Invalid character " ++ quotedCharacter byte ++ " at position " ++ toString index
  | wrongLength => "Invalid string length"

/-- The bytes two digits at a time; `index` counts the digits already read. -/
def bytesOfHex (index : Nat) : Bytes → Except HexFault Bytes
  | [] => .ok []
  | [_] => .error .oddLength
  | high :: low :: rest =>
    match Bytes.hexValue? high, Bytes.hexValue? low with
    | none, _ => .error (.invalidCharacter high index)
    | some _, none => .error (.invalidCharacter low (index + 1))
    | some h, some l => (bytesOfHex (index + 2) rest).map ((h <<< 4 ||| l) :: ·)

/-- Reads 64 digits of either case.  An odd number of bytes is reported before a bad digit, and a
bad digit before a wrong length. -/
def ofHex (text : String) : Except HexFault Hash :=
  let digits := Bytes.ofString text
  if digits.length % 2 = 1 then .error .oddLength
  else do
    let bytes ← bytesOfHex 0 digits
    match ofBytes? bytes with
    | some h => .ok h
    | none => .error .wrongLength

end Hash

end KeyTransparency
