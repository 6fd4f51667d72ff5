import KeyTransparency.Proofs.Forest.Blocks

/-!
# What a verifier of extension proofs checks

A proof verifies when the sizes and numbers of roots are right, the kept roots are the same
(`Comparable`), and either no root was taken in and the proof is empty (`verify_eq_ok_iff_of_kept`), or
the climb from the last old root uses up all old roots that are gone and all siblings and ends at the
new root (`verify_eq_ok_iff_of_merged`).

The climb takes a left neighbour from the old roots wherever its position is odd in its row, and a
right neighbour from the proof wherever it is even (`climb_odd_eq_ok_iff`, `climb_even_eq_ok_iff`).
-/

namespace KeyTransparency

open Tower Forest

namespace Forest

/-! ## Steps of a climb -/

namespace Climb

/-- Takes in an old root on the left. -/
def joinLeft (c : Climb) (level : Nat) (left : ForestNode) (absorb : List ForestNode) : Climb :=
  { c with start := c.start - blockSize level, node := left.combine c.node, absorb }

/-- Takes a node of the proof on the right. -/
def joinRight (c : Climb) (right : ForestNode) (siblings : List ForestNode) : Climb :=
  { c with node := c.node.combine right, siblings }

end Climb

section

variable {up level index : Nat} {c top : Climb}

/-- At an odd position the next old root must be there. -/
theorem climb_odd_eq_ok_iff (hstart : c.start = index * blockSize level) (hodd : index % 2 = 1) :
    climb (up + 1) level c = .ok top ↔
      ∃ left absorb, c.absorb = left :: absorb ∧
        climb up (level + 1) (c.joinLeft level left absorb) = .ok top := by
  have hbit : c.start.testBit level = true := by
    rw [hstart]
    exact testBit_mul_blockSize.2 hodd
  rw [climb, if_pos hbit]
  cases c.absorb with
  | nil => simp
  | cons left absorb => simp [Climb.joinLeft]

/-- At an even position the next sibling must be there. -/
theorem climb_even_eq_ok_iff (hstart : c.start = index * blockSize level) (heven : ¬ index % 2 = 1) :
    climb (up + 1) level c = .ok top ↔
      ∃ right siblings, c.siblings = right :: siblings ∧
        climb up (level + 1) (c.joinRight right siblings) = .ok top := by
  have hbit : ¬ c.start.testBit level = true := by
    rw [hstart]
    exact mt testBit_mul_blockSize.1 heven
  rw [climb, if_neg hbit]
  cases c.siblings with
  | nil => simp
  | cons right siblings => simp [Climb.joinRight]

/-- After a step to the left the climb is at half the index. -/
theorem joinLeft_start (hstart : c.start = index * blockSize level) (hodd : index % 2 = 1)
    (left : ForestNode) (absorb : List ForestNode) :
    (c.joinLeft level left absorb).start = index / 2 * blockSize (level + 1) := by
  rw [half_mul_blockSize_odd hodd, Climb.joinLeft, hstart, ← pred_mul_add hodd, Nat.add_sub_cancel]

theorem joinRight_start (hstart : c.start = index * blockSize level) (heven : ¬ index % 2 = 1)
    (right : ForestNode) (siblings : List ForestNode) :
    (c.joinRight right siblings).start = index / 2 * blockSize (level + 1) := by
  rw [half_mul_blockSize_even (by omega), Climb.joinRight, hstart]

end

end Forest

/-! ## Verified proofs -/

namespace ExtensionProof

variable {proof : ExtensionProof} {old new : ForestDigest}

/-- What is checked of two digests before any climb. -/
structure Comparable (proof : ExtensionProof) (old new : ForestDigest) : Prop where
  sizes : proof.oldSize = old.size ∧ proof.newSize = new.size
  grows : old.size ≤ new.size
  rootCounts : old.roots.length = bitCount old.size ∧ new.roots.length = bitCount new.size
  kept : old.roots.take (keptRoots old.size new.size) = new.roots.take (keptRoots old.size new.size)

theorem comparable_iff :
    proof.Comparable old new ↔
      ((¬ (proof.oldSize ≠ old.size ∨ proof.newSize ≠ new.size) ∧ ¬ new.size < old.size) ∧
        ¬ (old.roots.length ≠ bitCount old.size ∨ new.roots.length ≠ bitCount new.size)) ∧
        ¬ old.roots.take (keptRoots old.size new.size) ≠
          new.roots.take (keptRoots old.size new.size) := by
  rw [not_not, not_or, not_or, not_not, not_not, not_not, not_not, Nat.not_lt]
  constructor
  · rintro ⟨hsizes, hgrows, hcounts, hkept⟩
    exact ⟨⟨⟨hsizes, hgrows⟩, hcounts⟩, hkept⟩
  · rintro ⟨⟨⟨hsizes, hgrows⟩, hcounts⟩, hkept⟩
    exact ⟨hsizes, hgrows, hcounts, hkept⟩

theorem comparable_of_verify (h : verifyExtension old new proof = .ok ()) :
    proof.Comparable old new := by
  rw [verifyExtension, mapError_eq_ok_iff, checkExtension, check_eq_ok_iff, check_eq_ok_iff,
    check_eq_ok_iff, check_eq_ok_iff, ← and_assoc, ← and_assoc, ← and_assoc, ← comparable_iff] at h
  exact h.1

/-- When all roots are kept there is nothing to climb. -/
theorem verify_eq_ok_iff_of_kept (old new : ForestDigest)
    (hkept : (rootPositions old.size).drop (keptRoots old.size new.size) = []) :
    verifyExtension old new proof = .ok () ↔ proof.Comparable old new ∧ proof.siblings = [] := by
  have hlast : ((rootPositions old.size).drop (keptRoots old.size new.size)).getLast? = none := by
    rw [hkept, List.getLast?_nil]
  rw [verifyExtension, mapError_eq_ok_iff, checkExtension, check_eq_ok_iff, check_eq_ok_iff,
    check_eq_ok_iff, check_eq_ok_iff, ← and_assoc, ← and_assoc, ← and_assoc, ← comparable_iff]
  split
  · next hsome _ =>
    rw [hlast] at hsome
    cases hsome
  · rw [lastCheck_eq_ok_iff, not_not]

/-- When roots were merged, the climb has to rebuild the new one from all of them. -/
theorem verify_eq_ok_iff_of_merged (old new : ForestDigest) {last target : RootPosition}
    {node : ForestNode} {absorb : List ForestNode}
    (hlast : ((rootPositions old.size).drop (keptRoots old.size new.size)).getLast? = some last)
    (htarget : (rootPositions new.size)[keptRoots old.size new.size]? = some target)
    (hroots : (old.roots.drop (keptRoots old.size new.size)).reverse = node :: absorb) :
    verifyExtension old new proof = .ok () ↔
      proof.Comparable old new ∧
        ∃ top, climb (target.level - last.level) last.level
            ⟨last.start, node, absorb, proof.siblings⟩ = .ok top ∧
          (top.absorb = [] ∧ top.start = target.start) ∧ top.siblings = [] ∧
          some top.node = new.roots[keptRoots old.size new.size]? := by
  rw [verifyExtension, mapError_eq_ok_iff, checkExtension, check_eq_ok_iff, check_eq_ok_iff,
    check_eq_ok_iff, check_eq_ok_iff, ← and_assoc, ← and_assoc, ← and_assoc, ← comparable_iff]
  simp only [hlast, htarget, hroots, bind_eq_ok_iff, check_eq_ok_iff, lastCheck_eq_ok_iff, not_or,
    not_not]

end ExtensionProof

end KeyTransparency
