import KeyTransparency.Bytes

/-!
The 64-bit xxHash of a byte string with seed zero, the checksum of compressed frames.
-/

namespace KeyTransparency.XxHash

def prime1 : UInt64 := 0x9E3779B185EBCA87
def prime2 : UInt64 := 0xC2B2AE3D27D4EB4F
def prime3 : UInt64 := 0x165667B19E3779F9
def prime4 : UInt64 := 0x85EBCA77C2B2AE63
def prime5 : UInt64 := 0x27D4EB2F165667C5

def rotateLeft (n w : UInt64) : UInt64 := (w <<< n) ||| (w >>> (64 - n))

def round (lane word : UInt64) : UInt64 := rotateLeft 31 (lane + word * prime2) * prime1

def merge (hash lane : UInt64) : UInt64 := (hash ^^^ round 0 lane) * prime1 + prime4

def wordOf (bytes : Bytes) : UInt64 := UInt64.ofNat (Bytes.ofLittleEndian bytes)

structure Lanes where
  (v1 v2 v3 v4 : UInt64)

def Lanes.step (v : Lanes) (stripe : Bytes) : Lanes :=
  ⟨round v.v1 (wordOf (stripe.take 8)), round v.v2 (wordOf ((stripe.drop 8).take 8)),
    round v.v3 (wordOf ((stripe.drop 16).take 8)), round v.v4 (wordOf ((stripe.drop 24).take 8))⟩

/-- The last bytes, fewer than 32 of them, in words of eight, four and one byte. -/
def finish (hash : UInt64) (bytes : Bytes) : UInt64 :=
  let eights := bytes.length / 8
  let hash := (Bytes.pieces 8 (bytes.take (8 * eights))).foldl
    (fun hash piece =>
      if piece.isEmpty then hash
      else rotateLeft 27 (hash ^^^ round 0 (wordOf piece)) * prime1 + prime4) hash
  let rest := bytes.drop (8 * eights)
  let (hash, rest) :=
    if 4 ≤ rest.length then
      (rotateLeft 23 (hash ^^^ wordOf (rest.take 4) * prime1) * prime2 + prime3, rest.drop 4)
    else (hash, rest)
  rest.foldl (fun hash b => rotateLeft 11 (hash ^^^ b.toUInt64 * prime5) * prime1) hash

def avalanche (hash : UInt64) : UInt64 :=
  let hash := (hash ^^^ (hash >>> 33)) * prime2
  let hash := (hash ^^^ (hash >>> 29)) * prime3
  hash ^^^ (hash >>> 32)

def digest (bytes : Bytes) : UInt64 :=
  let stripes := bytes.length / 32
  let start :=
    if stripes = 0 then prime5
    else
      let v := (Bytes.pieces 32 (bytes.take (32 * stripes))).foldl Lanes.step
        ⟨prime1 + prime2, prime2, 0, 0 - prime1⟩
      let mixed := rotateLeft 1 v.v1 + rotateLeft 7 v.v2 + rotateLeft 12 v.v3 + rotateLeft 18 v.v4
      merge (merge (merge (merge mixed v.v1) v.v2) v.v3) v.v4
  avalanche (finish (start + UInt64.ofNat bytes.length) (bytes.drop (32 * stripes)))

end KeyTransparency.XxHash
