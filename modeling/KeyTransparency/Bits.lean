import KeyTransparency.Hash

/-!
Bit strings, the keys of the tries.

A bit string is a list with one byte for each bit.  Keys and labels made here hold zeros and ones
only (`WellFormed`); what an untrusted party sends may hold other bytes and is kept as it is.
-/

namespace KeyTransparency

abbrev Bits := List UInt8

namespace Bits

def WellFormed (bits : Bits) : Prop := ∀ b ∈ bits, b = 0 ∨ b = 1

/-- Every byte gives eight bits, the highest first. -/
def ofBytes (bytes : Bytes) : Bits :=
  bytes.flatMap fun (b : UInt8) => [b >>> 7 &&& 1, b >>> 6 &&& 1, b >>> 5 &&& 1, b >>> 4 &&& 1,
    b >>> 3 &&& 1, b >>> 2 &&& 1, b >>> 1 &&& 1, b &&& 1]

/-- Anything but zero counts as one. -/
def ofFlags (flags : List UInt8) : Bits := flags.map fun b => if b = 0 then 0 else 1

def parse? (text : String) : Option Bits :=
  text.toList.mapM fun c => if c = '0' then some 0 else if c = '1' then some 1 else none

/-- The trie key of an identifier: the bits of its commitment. -/
def ofIdentifier (identifier : Bytes) : Bits :=
  ofBytes (Hash.ofParts .identifier [identifier]).bytes

def slice (bits : Bits) (start stop : Nat) : Bits := (bits.take stop).drop start

/-- How far two bit strings agree. -/
def commonPrefix : Bits → Bits → Nat
  | a :: as, b :: bs => if a = b then commonPrefix as bs + 1 else 0
  | _, _ => 0

/-- The bytes in decimal, one after the other. -/
def display (bits : Bits) : String := String.join (bits.map fun b => toString b.toNat)

/-- How a bit string is shown in diagnostics: at most sixteen bits, then the length. -/
def brief (bits : Bits) : String :=
  if bits.length > 16 then
    "Bits(" ++ display (bits.take 16) ++ "..; " ++ toString bits.length ++ ")"
  else "Bits(" ++ display bits ++ ")"

/-! ## Lemmas -/

theorem commonPrefix_le_right (as bs : Bits) : commonPrefix as bs ≤ bs.length := by
  fun_induction commonPrefix as bs <;> simp_all

theorem commonPrefix_eq_length_iff {as bs : Bits} : commonPrefix as bs = bs.length ↔ bs <+: as := by
  fun_induction commonPrefix as bs with
  | case1 a as bs ih => simp [ih]
  | case2 a as b bs h => simp [List.cons_prefix_cons, Ne.symm h]
  | case3 as bs h =>
    cases bs with
    | nil => simp
    | cons b bs =>
      cases as with
      | nil => simp
      | cons a as => exact absurd rfl (h a as b bs rfl)

end Bits

end KeyTransparency
