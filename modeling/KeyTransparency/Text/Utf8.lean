import KeyTransparency.Bytes

/-!
Reading UTF-8.  `decode?` refuses malformed text; `decodeLossy` puts U+FFFD in the place of every
malformed piece, where a piece is the longest start of a character that the bytes still spell.
-/

namespace KeyTransparency.Utf8

def isContinuation (b : UInt8) : Bool := 0x80 ≤ b && b ≤ 0xBF

/-- The second bytes that may follow a first byte, and how many bytes follow in all. -/
def following (b : UInt8) : Option (UInt8 × UInt8 × Nat) :=
  if b < 0xC2 then none
  else if b ≤ 0xDF then some (0x80, 0xBF, 1)
  else if b = 0xE0 then some (0xA0, 0xBF, 2)
  else if b = 0xED then some (0x80, 0x9F, 2)
  else if b ≤ 0xEF then some (0x80, 0xBF, 2)
  else if b = 0xF0 then some (0x90, 0xBF, 3)
  else if b ≤ 0xF3 then some (0x80, 0xBF, 3)
  else if b = 0xF4 then some (0x80, 0x8F, 3)
  else none

/-- The character that starts with `b`, or `none`, and how many of the bytes after `b` belong to it. -/
def step (b : UInt8) (rest : Bytes) : Option Char × Nat :=
  if b < 0x80 then (some (Char.ofNat b.toNat), 0)
  else
    match following b, rest with
    | none, _ => (none, 0)
    | some _, [] => (none, 0)
    | some (low, high, n), b1 :: more =>
      if low ≤ b1 ∧ b1 ≤ high then
        let tail := (more.take (n - 1)).takeWhile isContinuation
        if tail.length = n - 1 then
          let lead := if n = 1 then b.toNat % 32 else if n = 2 then b.toNat % 16 else b.toNat % 8
          let code := (b1 :: tail).foldl (fun acc c => acc * 64 + c.toNat % 64) lead
          (some (Char.ofNat code), n)
        else (none, 1 + tail.length)
      else (none, 0)

/-- One entry for every character or malformed piece, after `skip` bytes. -/
def scan : (skip : Nat) → Bytes → List (Option Char)
  | _, [] => []
  | skip + 1, _ :: rest => scan skip rest
  | 0, b :: rest => (step b rest).1 :: scan (step b rest).2 rest

def decode? (bytes : Bytes) : Option String :=
  ((scan 0 bytes).mapM id).map String.ofList

def decodeLossy (bytes : Bytes) : String :=
  String.ofList ((scan 0 bytes).map (·.getD '\uFFFD'))

end KeyTransparency.Utf8
