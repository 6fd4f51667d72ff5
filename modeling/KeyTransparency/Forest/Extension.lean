import KeyTransparency.Forest.Basic

/-!
Proofs that a forest is a continuation of an earlier one.

The leading roots that stay roots are compared.  The others were absorbed into one new root: starting
from the smallest of them, the verifier climbs to that root, taking each of them in as a left
sibling and the nodes of the proof as right siblings.
-/

namespace KeyTransparency

structure ExtensionProof where
  oldSize : Nat
  newSize : Nat
  /-- The right siblings on the climb, lowest first. -/
  siblings : List ForestNode
deriving DecidableEq

namespace HistoryForest

open Forest

/-- The right siblings on a climb of `up` levels from the node of `level` that starts at leaf
`start`. -/
def siblingsAbove (forest : HistoryForest) : (up level start : Nat) → List ForestNode
  | 0, _, _ => []
  | up + 1, level, start =>
    if start.testBit level then forest.siblingsAbove up (level + 1) (start - Tower.blockSize level)
    else
      (forest.levels.node? level (start / Tower.blockSize level + 1)).toList ++
        forest.siblingsAbove up (level + 1) start

/-- The proof that the forest of `newSize` leaves continues the one of `oldSize`. -/
def extensionProof (forest : HistoryForest) (oldSize newSize : Nat) : Except Error ExtensionProof :=
  if newSize < oldSize ∨ forest.size < newSize then .error (.invalidRange oldSize newSize)
  else
    let kept := keptRoots oldSize newSize
    match (rootPositions oldSize).drop kept |>.getLast?, (rootPositions newSize)[kept]? with
    | some last, some target =>
      .ok ⟨oldSize, newSize, forest.siblingsAbove (target.level - last.level) last.level last.start⟩
    | _, _ => .ok ⟨oldSize, newSize, []⟩

end HistoryForest

namespace Forest

/-! ## Verification -/

/-- Where a climb has come to. -/
structure Climb where
  start : Nat
  node : ForestNode
  /-- The old roots not yet taken in, the nearest first. -/
  absorb : List ForestNode
  siblings : List ForestNode

/-- Climbs `up` levels from `level`. -/
def climb : (up level : Nat) → Climb → Except ProofFault Climb
  | 0, _, c => .ok c
  | up + 1, level, c =>
    if c.start.testBit level then
      match c.absorb with
      | [] => .error .walkPassedChangedRoot
      | left :: absorb =>
        climb up (level + 1)
          { c with start := c.start - Tower.blockSize level, node := left.combine c.node, absorb }
    else
      match c.siblings with
      | [] => .error .missingSibling
      | right :: siblings => climb up (level + 1) { c with node := c.node.combine right, siblings }

/-- The number of set bits. -/
def bitCount (n : Nat) : Nat := (rootPositions n).length

def checkExtension (old new : ForestDigest) (proof : ExtensionProof) : Except ProofFault Unit := do
  if proof.oldSize ≠ old.size ∨ proof.newSize ≠ new.size then throw .sizesDiffer
  if new.size < old.size then throw .forestShrank
  if old.roots.length ≠ bitCount old.size ∨ new.roots.length ≠ bitCount new.size then
    throw .rootCount
  let kept := keptRoots old.size new.size
  if old.roots.take kept ≠ new.roots.take kept then throw .settledRootRewritten
  match (old.roots.drop kept).reverse, ((rootPositions old.size).drop kept).getLast?,
      (rootPositions new.size)[kept]? with
  | node :: absorb, some last, some target =>
    let top ← climb (target.level - last.level) last.level ⟨last.start, node, absorb, proof.siblings⟩
    if top.absorb ≠ [] ∨ top.start ≠ target.start then throw .walkIncomplete
    if top.siblings ≠ [] then throw .extraSiblings
    if some top.node ≠ new.roots[kept]? then throw .rebuiltRootDiffers
  | _, _, _ => if proof.siblings ≠ [] then throw .unexpectedSiblings

/-- Checks that `new` continues `old` and leaves all its leaves as they were. -/
def verifyExtension (old new : ForestDigest) (proof : ExtensionProof) : Except Error Unit :=
  (checkExtension old new proof).mapError (.proofInvalid .history)

end Forest

end KeyTransparency
