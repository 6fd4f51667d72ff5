import KeyTransparency.Log.Basic

/-!
Proofs that a log is a continuation of an earlier one.

A proof is a list of tree hashes from which both roots can be computed.  Which hashes it holds is
settled by the two sizes alone, so the verifier derives its steps from the sizes: `old` and `new`
are the positions, at the current height, of the last node of the old tree and of the new one.
-/

namespace KeyTransparency

structure ConsistencyProof where
  oldSize : Nat
  newSize : Nat
  path : List Hash
deriving DecidableEq

def ConsistencyProof.empty : ConsistencyProof := ⟨0, 0, []⟩

instance : Inhabited ConsistencyProof := ⟨.empty⟩

namespace CommitmentLog

open Log

/-- The path for the first `m` of the `n` entries from `start` on.  `complete` holds while those `m`
entries are the whole old log, whose root the verifier knows. -/
def subproof (log : CommitmentLog) (m start n : Nat) (complete : Bool) : List Hash :=
  if m = n then if complete then [] else [log.subtree start n]
  else if _ : n < 2 then []
  else
    let k := splitPoint n
    if m ≤ k then log.subproof m start k complete ++ [log.subtree (start + k) (n - k)]
    else log.subproof (m - k) (start + k) (n - k) false ++ [log.subtree start k]
termination_by n
decreasing_by
  · exact splitPoint_lt (by omega)
  · have := splitPoint_pos n
    omega

/-- The proof that the first `oldSize` entries begin the first `newSize`. -/
def consistencyProof (log : CommitmentLog) (oldSize newSize : Nat) :
    Except Error ConsistencyProof :=
  if newSize < oldSize ∨ log.size < newSize then .error (.invalidRange oldSize newSize)
  else if oldSize = 0 ∨ oldSize = newSize then .ok ⟨oldSize, newSize, []⟩
  else .ok ⟨oldSize, newSize, log.subproof oldSize 0 newSize true⟩

end CommitmentLog

namespace Log

/-! ## Verification -/

/-- Climbs while the old position is a right child, whose subtree is perfect. -/
def skipRight (old new : Nat) : Nat × Nat :=
  if _ : old % 2 = 1 then skipRight (old / 2) (new / 2) else (old, new)
termination_by old

/-- Climbs while the old position is a left child, down to the root at position zero. -/
def skipLeft (old new : Nat) : Nat × Nat :=
  if _ : old % 2 = 0 ∧ old ≠ 0 then skipLeft (old / 2) (new / 2) else (old, new)
termination_by old

/-- Uses up the path, keeping the hashes of the old and the new subtree; answers the new position
that is left and the two hashes. -/
def climb : List Hash → (old new : Nat) → (oldHash newHash : Hash) →
    Except ProofFault (Nat × Hash × Hash)
  | [], _, new, oldHash, newHash => .ok (new, oldHash, newHash)
  | sibling :: path, old, new, oldHash, newHash =>
    if new = 0 then .error .proofTooLong
    else if old % 2 = 1 ∨ old = new then
      let (old, new) := skipLeft old new
      climb path (old / 2) (new / 2) (nodeHash sibling oldHash) (nodeHash sibling newHash)
    else climb path (old / 2) (new / 2) oldHash (nodeHash newHash sibling)

def checkConsistency (old new : LogDigest) (proof : ConsistencyProof) : Except ProofFault Unit := do
  if proof.oldSize ≠ old.size ∨ proof.newSize ≠ new.size then throw .sizesDiffer
  if new.size < old.size then throw .logShrank
  if old.size = new.size then
    if proof.path ≠ [] ∨ old.root ≠ new.root then throw .equalSizesDiffer
  else if old.size = 0 then
    if proof.path ≠ [] then throw .proofFromEmptyLog
  else
    -- an old tree over a power of two is itself a node of the new one
    let nodes := if isPowerOfTwo old.size then old.root :: proof.path else proof.path
    match nodes with
    | [] => throw .emptyProof
    | first :: path =>
      let (oldLast, newLast) := skipRight (old.size - 1) (new.size - 1)
      let (left, oldRoot, newRoot) ← climb path oldLast newLast first first
      if left ≠ 0 then throw .proofTooShort
      if oldRoot ≠ old.root then throw .oldRootDiffers
      if newRoot ≠ new.root then throw .newRootDiffers

/-- Checks that the log behind `new` begins with the log behind `old`. -/
def verifyConsistency (old new : LogDigest) (proof : ConsistencyProof) : Except Error Unit :=
  (checkConsistency old new proof).mapError (.proofInvalid .log)

end Log

end KeyTransparency
