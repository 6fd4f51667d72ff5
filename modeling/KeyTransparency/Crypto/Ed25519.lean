import KeyTransparency.Crypto.Sha512
import KeyTransparency.Signature

/-!
Ed25519 signatures.

Points of the curve -x² + y² = 1 + d x² y² over the field of 2^255 - 19 elements are kept in extended
coordinates (x = X/Z, y = Y/Z, xy = T/Z), for which one addition law has no exceptions.  A signature
is accepted if its scalar is below the group order and R = S·B - k·A, where R is compared as encoded
bytes; keys of small order are not refused.  A key may encode its y coordinate unreduced, and may set
the sign bit of a zero x coordinate.
-/

namespace KeyTransparency.Ed25519

/-! ## The field -/

def fieldSize : Nat := (1 <<< 255) - 19

/-- The order of the base point. -/
def groupOrder : Nat := (1 <<< 252) + 27742317777372353535851937790883648493

def add (a b : Nat) : Nat := (a + b) % fieldSize
def sub (a b : Nat) : Nat := (a + (fieldSize - b)) % fieldSize
def mul (a b : Nat) : Nat := a * b % fieldSize
def neg (a : Nat) : Nat := (fieldSize - a) % fieldSize

/-- `base ^ n`, for exponents of at most `bits` bits. -/
def pow (base : Nat) : (bits n : Nat) → Nat
  | 0, _ => 1
  | bits + 1, n =>
    let half := pow base bits (n / 2)
    let square := mul half half
    if n % 2 = 1 then mul square base else square

def inverse (a : Nat) : Nat := pow a 255 (fieldSize - 2)

/-- A square root of -1. -/
def rootOfMinusOne : Nat := pow 2 255 ((fieldSize - 1) / 4)

/-- The even square root of `u / v`, if there is one. -/
def sqrtRatio? (u v : Nat) : Option Nat :=
  let v3 := mul (mul v v) v
  let v7 := mul (mul v3 v3) v
  let r := mul (mul u v3) (pow (mul u v7) 255 ((fieldSize - 5) / 8))
  let check := mul v (mul r r)
  let root? :=
    if check = u then some r
    else if check = neg u then some (mul r rootOfMinusOne)
    else none
  root?.map fun root => if root % 2 = 1 then neg root else root

/-! ## The curve -/

/-- -121665 / 121666 -/
def d : Nat := 37095705934669439343138083508754565189542113879843219016388785533085940283555

structure Point where
  (x y z t : Nat)

namespace Point

def zero : Point := ⟨0, 1, 1, 0⟩

def add (p q : Point) : Point :=
  let a := mul (sub p.y p.x) (sub q.y q.x)
  let b := mul (Ed25519.add p.y p.x) (Ed25519.add q.y q.x)
  let c := mul (mul p.t (2 * d % fieldSize)) q.t
  let w := mul (2 * p.z) q.z
  let e := sub b a
  let f := sub w c
  let g := Ed25519.add w c
  let h := Ed25519.add b a
  ⟨mul e f, mul g h, mul f g, mul e h⟩

def double (p : Point) : Point :=
  let a := mul p.x p.x
  let b := mul p.y p.y
  let c := mul 2 (mul p.z p.z)
  let h := Ed25519.add a b
  let s := Ed25519.add p.x p.y
  let e := sub h (mul s s)
  let g := sub a b
  let f := Ed25519.add c g
  ⟨mul e f, mul g h, mul f g, mul e h⟩

def neg (p : Point) : Point := ⟨Ed25519.neg p.x, p.y, p.z, Ed25519.neg p.t⟩

/-- `p`, twice `p`, four times `p` and so on, `count` points. -/
def doublings (p : Point) : (count : Nat) → List Point
  | 0 => []
  | count + 1 => p :: doublings p.double count

/-- The sum of the points at which `n` has a bit set, the low bit first. -/
def sumAt : List Point → (n : Nat) → Point
  | [], _ => zero
  | p :: more, n =>
    let sum := sumAt more (n / 2)
    if n % 2 = 1 then sum.add p else sum

/-- Scalars have at most so many bits. -/
def scalarBits : Nat := 255

/-- `n` times `p`. -/
def scale (p : Point) (n : Nat) : Point := sumAt (doublings p scalarBits) n

/-- The point of even x coordinate and the given y, or its negative. -/
def ofY? (y : Nat) (odd : Bool) : Option Point :=
  let yy := mul y y
  (sqrtRatio? (sub yy 1) (Ed25519.add (mul d yy) 1)).map fun root =>
    let x := if odd then Ed25519.neg root else root
    ⟨x, y, 1, mul x y⟩

def base : Point := (ofY? (mul 4 (inverse 5)) false).getD zero

def baseDoublings : List Point := doublings base scalarBits

/-- `n` times the base point. -/
def ofScalar (n : Nat) : Point := sumAt baseDoublings n

/-- The y coordinate in 32 bytes, low byte first, and the parity of x in the last bit. -/
def encode (p : Point) : Bytes :=
  let i := inverse p.z
  Bytes.littleEndian 32 (mul p.y i + (mul p.x i % 2) <<< 255)

def decode? (bytes : Bytes) : Option Point :=
  let n := Bytes.ofLittleEndian bytes
  ofY? (n % (1 <<< 255) % fieldSize) (n.testBit 255)

end Point

/-! ## Signatures -/

/-- The scalar of a secret and the key of its nonces. -/
def expand (secret : Bytes) : Nat × Bytes :=
  let h := Sha512.digest secret
  let n := Bytes.ofLittleEndian (h.take 32)
  (n % (1 <<< 254) / 8 * 8 + (1 <<< 254), h.drop 32)

def hashToScalar (message : Bytes) : Nat := Bytes.ofLittleEndian (Sha512.digest message) % groupOrder

def publicKey (secret : Bytes) : Bytes := (Point.ofScalar (expand secret).1).encode

def sign (secret message : Bytes) : Bytes :=
  let (scalar, nonceKey) := expand secret
  let key := (Point.ofScalar scalar).encode
  let r := hashToScalar (nonceKey ++ message)
  let commitment := (Point.ofScalar r).encode
  let k := hashToScalar (commitment ++ key ++ message)
  commitment ++ Bytes.littleEndian 32 ((r + k * scalar) % groupOrder)

def accepts (key message signature : Bytes) : Bool :=
  match Point.decode? key with
  | none => false
  | some a =>
    let commitment := signature.take 32
    let s := Bytes.ofLittleEndian (signature.drop 32)
    let k := hashToScalar (commitment ++ key ++ message)
    s < groupOrder && ((Point.ofScalar s).add (a.neg.scale k)).encode == commitment

def scheme : SigningScheme where
  isKey key := (Point.decode? key).isSome
  accepts := accepts
  publicKey := publicKey
  sign := sign

end KeyTransparency.Ed25519
