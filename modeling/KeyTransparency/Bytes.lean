/-!
Byte strings and the fixed-width numbers written into them.

A number is written as its base-256 digits, low digit first (`littleEndian`) or high digit first
(`bigEndian`).  Main statements: reading the digits back gives the number modulo the width
(`ofLittleEndian_littleEndian`), so words of one width have equal digits only when they are equal
(`bigEndian64_inj`).
-/

namespace KeyTransparency

abbrev Bytes := List UInt8

namespace Bytes

def ofString (s : String) : Bytes := s.toUTF8.toList

/-! ## Fixed-width numbers -/

/-- The low `width` base-256 digits of `n`, low digit first. -/
def littleEndian : (width : Nat) → (n : Nat) → Bytes
  | 0, _ => []
  | width + 1, n => UInt8.ofNat (n % 256) :: littleEndian width (n / 256)

/-- The numbers that `width` bytes can hold are those below this one. -/
def bound (width : Nat) : Nat := Nat.pow 256 width

def ofLittleEndian : Bytes → Nat
  | [] => 0
  | b :: rest => b.toNat + 256 * ofLittleEndian rest

def bigEndian (width n : Nat) : Bytes := (littleEndian width n).reverse

def ofBigEndian (bytes : Bytes) : Nat := ofLittleEndian bytes.reverse

/-- Eight bytes, high byte first. -/
def bigEndian64 (n : UInt64) : Bytes := bigEndian 8 n.toNat

/-! ## Pieces -/

/-- Splits off the first `n` bytes, if there are so many. -/
def split? (n : Nat) (bytes : Bytes) : Option (Bytes × Bytes) :=
  let front := bytes.take n
  if front.length < n then none else some (front, bytes.drop n)

/-- Consecutive pieces of `n` bytes; the last may be shorter, and no bytes make one empty piece. -/
def pieces (n : Nat) (bytes : Bytes) : List Bytes :=
  go bytes.length bytes
where
  go : Nat → Bytes → List Bytes
    | 0, bytes => [bytes]
    | fuel + 1, bytes =>
      match bytes.drop n with
      | [] => [bytes]
      | rest => bytes.take n :: go fuel rest

/-- Byte by byte, a proper start first. -/
def compare : Bytes → Bytes → Ordering
  | [], [] => .eq
  | [], _ :: _ => .lt
  | _ :: _, [] => .gt
  | a :: as, b :: bs => if a < b then .lt else if b < a then .gt else compare as bs

/-! ## Hexadecimal text -/

def hexDigit (n : UInt8) : Char :=
  Char.ofNat (if n < 10 then 48 + n.toNat else 87 + n.toNat)

/-- Two lower-case digits a byte, high half first. -/
def toHex (bytes : Bytes) : String :=
  String.ofList (bytes.flatMap fun (b : UInt8) => [hexDigit (b >>> 4), hexDigit (b &&& 15)])

def hexValue? (c : UInt8) : Option UInt8 :=
  if 48 ≤ c ∧ c ≤ 57 then some (c - 48)
  else if 97 ≤ c ∧ c ≤ 102 then some (c - 87)
  else if 65 ≤ c ∧ c ≤ 70 then some (c - 55)
  else none

/-! ## Lemmas -/

@[simp] theorem length_littleEndian (width n : Nat) : (littleEndian width n).length = width := by
  induction width generalizing n with
  | zero => rfl
  | succ width ih => simp [littleEndian, ih]

@[simp] theorem length_bigEndian (width n : Nat) : (bigEndian width n).length = width := by
  simp [bigEndian]

@[simp] theorem length_bigEndian64 (n : UInt64) : (bigEndian64 n).length = 8 := by
  simp [bigEndian64]

theorem bound_succ (width : Nat) : bound (width + 1) = 256 * bound width :=
  Nat.pow_succ'

theorem ofLittleEndian_littleEndian (width n : Nat) :
    ofLittleEndian (littleEndian width n) = n % bound width := by
  induction width generalizing n with
  | zero => exact (Nat.mod_one n).symm
  | succ width ih =>
    have low : (UInt8.ofNat (n % 256)).toNat = n % 256 := by simp
    rw [littleEndian, ofLittleEndian, ih, low, bound_succ, Nat.mod_mul]

theorem bigEndian64_inj {m n : UInt64} (h : bigEndian64 m = bigEndian64 n) : m = n := by
  have h' := congrArg ofLittleEndian (List.reverse_inj.1 h)
  rw [ofLittleEndian_littleEndian, ofLittleEndian_littleEndian] at h'
  have hm : m.toNat < bound 8 := m.toNat_lt
  have hn : n.toNat < bound 8 := n.toNat_lt
  rw [Nat.mod_eq_of_lt hm, Nat.mod_eq_of_lt hn] at h'
  exact UInt64.toNat.inj h'

theorem split?_append (front back : Bytes) :
    split? front.length (front ++ back) = some (front, back) := by
  simp [split?]

theorem pieces_ne_nil (n : Nat) (bytes : Bytes) : pieces n bytes ≠ [] := by
  unfold pieces
  cases bytes.length with
  | zero => exact List.cons_ne_nil _ _
  | succ fuel =>
    unfold pieces.go
    split <;> exact List.cons_ne_nil _ _

theorem flatten_pieces (n : Nat) (bytes : Bytes) :
    (pieces n bytes).flatten = bytes := by
  have go (fuel : Nat) (bytes : Bytes) : (pieces.go n fuel bytes).flatten = bytes := by
    induction fuel generalizing bytes with
    | zero => rw [pieces.go, List.flatten_singleton]
    | succ fuel ih =>
      unfold pieces.go
      split
      · exact List.flatten_singleton
      · rw [List.flatten_cons, ih, List.take_append_drop]
  exact go bytes.length bytes

theorem length_le_of_mem_pieces {n : Nat} (positive : 0 < n) {bytes piece : Bytes}
    (h : piece ∈ pieces n bytes) : piece.length ≤ n := by
  have go (fuel : Nat) (bytes : Bytes) (enough : bytes.length ≤ fuel)
      (h : piece ∈ pieces.go n fuel bytes) : piece.length ≤ n := by
    induction fuel generalizing bytes with
    | zero =>
      rw [pieces.go, List.mem_singleton] at h
      rw [h]
      omega
    | succ fuel ih =>
      unfold pieces.go at h
      split at h
      · rename_i all
        rw [List.mem_singleton] at h
        rw [h]
        exact List.drop_eq_nil_iff.1 all
      · rcases List.mem_cons.1 h with rfl | h
        · rw [List.length_take]
          omega
        · refine ih _ ?_ h
          rw [List.length_drop]
          omega
  exact go bytes.length bytes (Nat.le_refl _) h

end Bytes

end KeyTransparency
