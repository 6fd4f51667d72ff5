import KeyTransparency.Proofs.Forest.Climb

/-!
# A forest proves that it continues each of its earlier states

Prover and verifier climb in step.  Where the prover finds an odd position it goes on from the left
neighbour, and the verifier has that neighbour's node among the old roots; where the prover finds an
even position it takes the right neighbour's node, and the verifier finds it next in the proof:

    siblingsAbove up level start = the nodes at siblingReads up level start          (siblingsAbove_eq)
    the climb with these siblings succeeds, uses up everything and ends at
      the node over the block that the positions climb to                            (exists_climb)

`siblingReads`, `extensionReads` and `rootReads` are the rows and indices that a forest looks up.
-/

namespace KeyTransparency

open Tower Forest

/-! ## Look-ups -/

namespace Forest

/-- The rows and indices looked up for the right siblings on a climb. -/
def siblingReads : (up level start : Nat) → List (Nat × Nat)
  | 0, _, _ => []
  | up + 1, level, start =>
    if start.testBit level then siblingReads up (level + 1) (start - blockSize level)
    else (level, start / blockSize level + 1) :: siblingReads up (level + 1) start

/-- The rows and indices looked up for an extension proof. -/
def extensionReads (oldSize newSize : Nat) : List (Nat × Nat) :=
  let kept := keptRoots oldSize newSize
  match ((rootPositions oldSize).drop kept).getLast?, (rootPositions newSize)[kept]? with
  | some last, some target => siblingReads (target.level - last.level) last.level last.start
  | _, _ => []

/-- The rows and indices looked up for the roots at a size. -/
def rootReads (size : Nat) : List (Nat × Nat) :=
  (rootPositions size).map fun p => (p.level, p.start / blockSize p.level)

/-- A block ends no later than each block around it. -/
theorem succ_mul_le_of_div (index up level : Nat) :
    (index + 1) * blockSize level ≤ (index / blockSize up + 1) * blockSize (level + up) := by
  have hlt : index < (index / blockSize up + 1) * blockSize up := by
    rw [Nat.mul_comm]
    exact Nat.lt_mul_div_succ index (blockSize_pos up)
  calc (index + 1) * blockSize level
    _ ≤ (index / blockSize up + 1) * blockSize up * blockSize level := Nat.mul_le_mul_right _ hlt
    _ = (index / blockSize up + 1) * blockSize (level + up) := by
        rw [blockSize_add]
        ring

end Forest

namespace HistoryForest

/-- What a forest finds at a row and an index. -/
def look (forest : HistoryForest) (read : Nat × Nat) : Option ForestNode :=
  forest.levels.node? read.1 read.2

theorem siblingsAbove_eq (forest : HistoryForest) (up level start : Nat) :
    forest.siblingsAbove up level start = (siblingReads up level start).filterMap forest.look := by
  induction up generalizing level start with
  | zero => rfl
  | succ up ih =>
    rw [siblingsAbove, siblingReads]
    split
    · exact ih _ _
    · rw [ih, List.filterMap_cons, look]
      cases forest.levels.node? level (start / blockSize level + 1) <;> rfl

/-! ## Honest climbs -/

namespace Holds

variable {forest : HistoryForest} {held : List ForestLeaf}

theorem look_eq (h : forest.Holds held) (level index : Nat) :
    forest.look (level, index) = nodeAt held ⟨level, index * blockSize level⟩ := by
  rw [look, show forest.levels = _ from h, node?_towerOf]

/-- A climb below a block that is complete finds all right siblings. -/
theorem isSome_of_mem_siblingReads (h : forest.Holds held) {up level index start : Nat}
    (hstart : start = index * blockSize level)
    (hfit : (index / blockSize up + 1) * blockSize (level + up) ≤ held.length) {read : Nat × Nat}
    (hread : read ∈ siblingReads up level start) : (forest.look read).isSome := by
  induction up generalizing level index start with
  | zero => cases hread
  | succ up ih =>
    have hlevel : level + (up + 1) = level + 1 + up := by omega
    rw [hlevel, ← half_div_blockSize] at hfit
    rw [siblingReads, hstart] at hread
    by_cases hodd : index % 2 = 1
    · rw [if_pos (testBit_mul_blockSize.2 hodd), ← pred_mul_add hodd, Nat.add_sub_cancel] at hread
      exact ih (half_mul_blockSize_odd hodd level).symm hfit hread
    · rw [if_neg (mt testBit_mul_blockSize.1 hodd)] at hread
      rcases List.mem_cons.1 hread with rfl | hread
      · -- the right sibling ends where the parent does
        have hparent := succ_mul_le_of_div (index / 2) up (level + 1)
        rw [Nat.succ_mul, half_mul_blockSize_even (by omega), blockSize_succ] at hparent
        rw [Nat.mul_div_cancel _ (blockSize_pos level), h.look_eq]
        apply isSome_nodeAt
        simp only [Nat.succ_mul]
        omega
      · exact ih (half_mul_blockSize_even (by omega) level).symm hfit hread

/-- **An honest climb succeeds** and uses up the old roots and the siblings. -/
theorem exists_climb (h : forest.Holds held) {up level index : Nat} {c : Climb}
    (hstart : c.start = index * blockSize level) (hnode : nodeAt held ⟨level, c.start⟩ = some c.node)
    (habsorb : c.absorb.map some = (leftNeighbours up level index).map (nodeAt held))
    (hsiblings : c.siblings.map some = (siblingReads up level c.start).map forest.look) :
    ∃ top, climb up level c = .ok top ∧ top.absorb = [] ∧ top.siblings = [] ∧
      top.start = index / blockSize up * blockSize (level + up) ∧
      nodeAt held ⟨level + up, top.start⟩ = some top.node := by
  induction up generalizing level index c with
  | zero =>
    refine ⟨c, rfl, List.map_eq_nil_iff.1 habsorb, List.map_eq_nil_iff.1 hsiblings, ?_, hnode⟩
    rw [hstart, blockSize_zero, Nat.div_one, Nat.add_zero]
  | succ up ih =>
    have hlevel : level + (up + 1) = level + 1 + up := by omega
    rw [hlevel, ← half_div_blockSize]
    by_cases hodd : index % 2 = 1
    · rw [leftNeighbours, if_pos hodd, List.map_cons] at habsorb
      obtain ⟨left, absorb, hcons, hleft, habsorb⟩ := List.map_eq_cons_iff.1 habsorb
      have hhalf := joinLeft_start hstart hodd left absorb
      have hparent : nodeAt held ⟨level + 1, (c.joinLeft level left absorb).start⟩ =
          some (c.joinLeft level left absorb).node := by
        rw [hhalf, half_mul_blockSize_odd hodd]
        refine nodeAt_succ_eq_some.2 ⟨left, c.node, hleft.symm, ?_, rfl⟩
        rw [pred_mul_add hodd, ← hstart, hnode]
      rw [siblingReads, hstart, if_pos (testBit_mul_blockSize.2 hodd), ← hstart] at hsiblings
      obtain ⟨top, hclimb, htop⟩ := ih hhalf hparent habsorb hsiblings
      exact ⟨top, (climb_odd_eq_ok_iff hstart hodd).2 ⟨left, absorb, hcons, hclimb⟩, htop⟩
    · rw [siblingReads, hstart, if_neg (mt testBit_mul_blockSize.1 hodd), List.map_cons,
        Nat.mul_div_cancel _ (blockSize_pos level), h.look_eq, ← hstart] at hsiblings
      obtain ⟨right, siblings, hcons, hright, hsiblings⟩ := List.map_eq_cons_iff.1 hsiblings
      have hhalf := joinRight_start hstart hodd right siblings
      have hparent : nodeAt held ⟨level + 1, (c.joinRight right siblings).start⟩ =
          some (c.joinRight right siblings).node := by
        refine nodeAt_succ_eq_some.2 ⟨c.node, right, hnode, ?_, rfl⟩
        rw [hright, Nat.succ_mul, ← hstart]
        rfl
      rw [leftNeighbours, if_neg hodd] at habsorb
      obtain ⟨top, hclimb, htop⟩ := ih hhalf hparent habsorb hsiblings
      exact ⟨top, (climb_even_eq_ok_iff hstart hodd).2 ⟨right, siblings, hcons, hclimb⟩, htop⟩

/-! ## Honest proofs -/

/-- The digests of a forest at two sizes can be compared. -/
theorem comparable (h : forest.Holds held) {m n : Nat} (hle : m ≤ n) (hfit : n ≤ held.length)
    (siblings : List ForestNode) :
    ExtensionProof.Comparable ⟨m, n, siblings⟩ ⟨forest.roots m, m⟩ ⟨forest.roots n, n⟩ := by
  have hm : m ≤ held.length := Nat.le_trans hle hfit
  have hsame := (h.map_kept hm n).trans (h.map_kept_of_grown hfit m).symm
  exact ⟨⟨rfl, rfl⟩, hle, ⟨h.length_roots hm, h.length_roots hfit⟩,
    List.map_injective_iff.2 (Option.some_injective _) hsame⟩

/-- The proof that a forest makes has all siblings of the climb. -/
theorem map_siblingsAbove (h : forest.Holds held) {m n level low first : Nat} (hfit : n ≤ held.length)
    (hmerged : Merged m n level low first) :
    (forest.siblingsAbove (level - low) low (first * blockSize low)).map some =
      (siblingReads (level - low) low (first * blockSize low)).map forest.look := by
  rw [siblingsAbove_eq, map_some_filterMap]
  intro read hread
  exact h.isSome_of_mem_siblingReads rfl (hmerged.fits_of_le hfit) hread

theorem exists_extensionProof (h : forest.Holds held) {m n : Nat} (hle : m ≤ n)
    (hfit : n ≤ held.length) :
    ∃ proof, forest.extensionProof m n = .ok proof ∧
      verifyExtension ⟨forest.roots m, m⟩ ⟨forest.roots n, n⟩ proof = .ok () := by
  have hrange : ¬ (n < m ∨ forest.size < n) := by
    rw [h.size_eq]
    omega
  rw [extensionProof, if_neg hrange]
  rcases kept_or_merged hle with hkept | ⟨level, low, first, hmerged⟩
  · simp only [hkept, List.getLast?_nil]
    refine ⟨_, rfl, (ExtensionProof.verify_eq_ok_iff_of_kept ⟨_, m⟩ ⟨_, n⟩ hkept).2 ?_⟩
    exact ⟨h.comparable hle hfit [], rfl⟩
  · simp only [hmerged.getLast?, hmerged.new]
    obtain ⟨node, absorb, hroots, hnode, habsorb⟩ := h.merged_roots (Nat.le_trans hle hfit) hmerged
    obtain ⟨top, hclimb, habsorbed, hused, hstart, htop⟩ :=
      h.exists_climb (c := ⟨first * blockSize low, node, absorb, _⟩) rfl hnode habsorb
        (h.map_siblingsAbove hfit hmerged)
    rw [hmerged.add_sub] at hstart htop
    have hnew : some top.node = (forest.roots n)[keptRoots m n]? := by
      rw [h.getElem?_roots hfit hmerged.new, ← hstart, htop]
    refine ⟨_, rfl, (ExtensionProof.verify_eq_ok_iff_of_merged ⟨_, m⟩ ⟨_, n⟩ hmerged.getLast?
      hmerged.new hroots).2 ?_⟩
    exact ⟨h.comparable hle hfit _, top, hclimb, ⟨habsorbed, hstart⟩, hused, hnew⟩

/-- A forest proves that it continues a forest whose leaves it begins with. -/
theorem exists_proof_of_prefix {forest' : HistoryForest} {held' : List ForestLeaf}
    (h : forest.Holds held) (h' : forest'.Holds held') (hbegins : held <+: held') :
    ∃ proof, forest'.extensionProof forest.digest.size forest'.size = .ok proof ∧
      verifyExtension forest.digest forest'.digest proof = .ok () := by
  obtain ⟨proof, hproof, hverify⟩ := h'.exists_extensionProof hbegins.length_le (Nat.le_refl _)
  rw [h.roots_of_prefix h' hbegins (Nat.le_refl _)] at hverify
  refine ⟨proof, ?_, ?_⟩
  · rw [h.digest_eq, h'.size_eq, hproof]
  · rw [h.digest_eq, h'.digest_eq, hverify]

theorem digestAt_eq (h : forest.Holds held) {n : Nat} (hfit : n ≤ held.length) :
    forest.digestAt n = .ok ⟨forest.roots n, n⟩ := by
  rw [digestAt, h.size_eq, if_neg (Nat.not_lt_of_le hfit)]

/-- A forest has every node that it looks up. -/
theorem isSome_of_mem_rootReads (h : forest.Holds held) {n : Nat} (hfit : n ≤ held.length)
    {read : Nat × Nat} (hread : read ∈ rootReads n) : (forest.look read).isSome := by
  obtain ⟨p, hp, rfl⟩ := List.mem_map.1 hread
  exact h.isSome_root hfit hp

theorem isSome_of_mem_extensionReads (h : forest.Holds held) {m n : Nat} (hle : m ≤ n)
    (hfit : n ≤ held.length) {read : Nat × Nat} (hread : read ∈ extensionReads m n) :
    (forest.look read).isSome := by
  rw [extensionReads] at hread
  rcases kept_or_merged hle with hkept | ⟨level, low, first, hmerged⟩
  · simp only [hkept, List.getLast?_nil] at hread
    cases hread
  · simp only [hmerged.getLast?, hmerged.new] at hread
    exact h.isSome_of_mem_siblingReads rfl (hmerged.fits_of_le hfit) hread

end Holds

/-- **A forest proves that it continues each of its earlier states.**  For sizes in order and within
the forest there is a proof, it verifies against the digests that the forest had at these sizes, no
look-up on the way misses, and where an old root is gone there is a new one that it was merged into. -/
theorem extension_complete (depth : Nat) (leaves : List ForestLeaf) {m n : Nat} (hle : m ≤ n)
    (hfit : n ≤ ((empty depth).appendAll leaves).size) :
    ∃ old new proof, ((empty depth).appendAll leaves).digestAt m = .ok old ∧
      ((empty depth).appendAll leaves).digestAt n = .ok new ∧
      ((empty depth).appendAll leaves).extensionProof m n = .ok proof ∧
      verifyExtension old new proof = .ok () ∧
      (∀ read ∈ rootReads m ++ rootReads n ++ extensionReads m n,
        (((empty depth).appendAll leaves).levels.node? read.1 read.2).isSome) ∧
      (keptRoots m n < (rootPositions m).length → keptRoots m n < (rootPositions n).length) := by
  obtain ⟨hheld, -⟩ := holds_appendAll depth leaves
  generalize (empty depth).appendAll leaves = forest at hheld hfit ⊢
  rw [hheld.size_eq] at hfit
  have hm := Nat.le_trans hle hfit
  obtain ⟨proof, hproof, hverify⟩ := hheld.exists_extensionProof hle hfit
  refine ⟨_, _, proof, hheld.digestAt_eq hm, hheld.digestAt_eq hfit, hproof, hverify, ?_, ?_⟩
  · intro read hread
    rw [List.mem_append, List.mem_append] at hread
    rcases hread with (hread | hread) | hread
    · exact hheld.isSome_of_mem_rootReads hm hread
    · exact hheld.isSome_of_mem_rootReads hfit hread
    · exact hheld.isSome_of_mem_extensionReads hle hfit hread
  · intro hgone
    rcases kept_or_merged hle with hkept | ⟨level, low, first, hmerged⟩
    · rw [List.drop_eq_nil_iff] at hkept
      omega
    · exact (List.getElem?_eq_some_iff.1 hmerged.new).1

/-- Seven leaves, the first three of them proved: the root over four leaves takes in both old ones. -/
theorem extension_complete_three_of_seven :
    let leaf (n : UInt64) : ForestLeaf := (Hash.zero, n)
    let forest := (empty 3).appendAll [leaf 0, leaf 1, leaf 2, leaf 3, leaf 4, leaf 5, leaf 6]
    3 ≤ 7 ∧ 7 ≤ forest.size ∧
      ∃ old new proof, forest.digestAt 3 = .ok old ∧ forest.digestAt 7 = .ok new ∧
        forest.extensionProof 3 7 = .ok proof ∧ verifyExtension old new proof = .ok () ∧
        (∀ read ∈ rootReads 3 ++ rootReads 7 ++ extensionReads 3 7,
          (forest.levels.node? read.1 read.2).isSome) ∧
        (keptRoots 3 7 < (rootPositions 3).length → keptRoots 3 7 < (rootPositions 7).length) := by
  intro leaf forest
  have hsize : 7 ≤ forest.size := by
    rw [(holds_appendAll 3 _).1.size_eq]
    decide
  exact ⟨by decide, hsize, extension_complete 3 _ (by decide) hsize⟩

end HistoryForest

end KeyTransparency
