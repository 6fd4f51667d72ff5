import KeyTransparency.Proofs.Forest.Climb
import KeyTransparency.Proofs.Preimage

/-!
# What a verified extension proof binds

The strings hashed for a forest (`HistoryForest.preimages`) and during a verification
(`ExtensionProof.preimages`) are lists of their own.  Up to a collision among them a node's hash binds
the leaves of its block, and a climb that ends at a node of the new forest binds all that it took in:

    the nodes over a block of two forests have one hash → the leaves agree there     (agree_of_nodeAt)
    climb from the old forest's last root = a node of the new forest →
      the new forest has all nodes of the climb, and the leaves agree                (agree_of_climb)

The second goes down from the top.  The node that the climb came to is one of the new forest, so its
children are, the nodes that the proof supplied among them.
-/

namespace KeyTransparency

open Tower Forest

/-! ## Hashed strings -/

/-- The strings hashed for the leaves of a forest and the nodes above them. -/
def HistoryForest.preimages (forest : HistoryForest) : List Bytes :=
  forest.leaves.map (fun leaf => ForestNode.leafPreimage leaf.1 leaf.2) ++
    forest.levels.joins.map fun pair => ForestNode.combinePreimage pair.1 pair.2

namespace Forest

/-- The strings that `climb` hashes. -/
def climbPreimages : (up level : Nat) → Climb → List Bytes
  | 0, _, _ => []
  | up + 1, level, c =>
    if c.start.testBit level then
      match c.absorb with
      | [] => []
      | left :: absorb =>
        ForestNode.combinePreimage left c.node ::
          climbPreimages up (level + 1) (c.joinLeft level left absorb)
    else
      match c.siblings with
      | [] => []
      | right :: siblings =>
        ForestNode.combinePreimage c.node right ::
          climbPreimages up (level + 1) (c.joinRight right siblings)

end Forest

/-- The strings hashed by a verifier that comes to the climb. -/
def ExtensionProof.preimages (proof : ExtensionProof) (old new : ForestDigest) : List Bytes :=
  let kept := keptRoots old.size new.size
  match (old.roots.drop kept).reverse, ((rootPositions old.size).drop kept).getLast?,
      (rootPositions new.size)[kept]? with
  | node :: absorb, some last, some target =>
    climbPreimages (target.level - last.level) last.level ⟨last.start, node, absorb, proof.siblings⟩
  | _, _, _ => []

/-- When all roots are kept nothing is hashed. -/
theorem ExtensionProof.preimages_of_kept {proof : ExtensionProof} {old new : ForestDigest}
    (hkept : (rootPositions old.size).drop (keptRoots old.size new.size) = []) :
    proof.preimages old new = [] := by
  have hlast : ((rootPositions old.size).drop (keptRoots old.size new.size)).getLast? = none := by
    rw [hkept, List.getLast?_nil]
  unfold preimages
  dsimp only
  split
  · next hsome _ =>
    rw [hlast] at hsome
    cases hsome
  · rfl

namespace Forest

section

variable {up level index : Nat} {c : Climb}

theorem climbPreimages_odd (hstart : c.start = index * blockSize level) (hodd : index % 2 = 1)
    {left : ForestNode} {absorb : List ForestNode} (habsorb : c.absorb = left :: absorb) :
    climbPreimages (up + 1) level c = ForestNode.combinePreimage left c.node ::
      climbPreimages up (level + 1) (c.joinLeft level left absorb) := by
  rw [climbPreimages, hstart, if_pos (testBit_mul_blockSize.2 hodd), habsorb]

theorem climbPreimages_even (hstart : c.start = index * blockSize level) (heven : ¬ index % 2 = 1)
    {right : ForestNode} {siblings : List ForestNode} (hsiblings : c.siblings = right :: siblings) :
    climbPreimages (up + 1) level c = ForestNode.combinePreimage c.node right ::
      climbPreimages up (level + 1) (c.joinRight right siblings) := by
  rw [climbPreimages, hstart, if_neg (mt testBit_mul_blockSize.1 heven), hsiblings]

end

/-! ## Agreement -/

/-- Two lists of leaves have the same ones from `first` to the one before `past`. -/
def Agree (held held' : List ForestLeaf) (first past : Nat) : Prop :=
  ∀ i, first ≤ i → i < past → held[i]? = held'[i]?

namespace Agree

variable {held held' : List ForestLeaf} {first middle past : Nat}

theorem nil (held held' : List ForestLeaf) (n : Nat) : Agree held held' n n :=
  fun _ hle hlt => absurd hlt (Nat.not_lt_of_le hle)

theorem append (h : Agree held held' first middle) (h' : Agree held held' middle past) :
    Agree held held' first past := by
  intro i hle hlt
  rcases Nat.lt_or_ge i middle with hi | hi
  · exact h i hle hi
  · exact h' i hi hlt

theorem isPrefix (h : Agree held held' 0 held.length) : held <+: held' := by
  rw [List.prefix_iff_getElem?]
  intro i hi
  rw [← h i (Nat.zero_le i) hi, List.getElem?_eq_getElem hi]

end Agree

/-- All strings hashed for the tower over the leaves are among these. -/
structure Hashed (held : List ForestLeaf) (strings : List Bytes) : Prop where
  leaf : ∀ leaf ∈ held, ForestNode.leafPreimage leaf.1 leaf.2 ∈ strings
  node : ∀ {level index left right},
    nodeAt held ⟨level, index * blockSize (level + 1)⟩ = some left →
    nodeAt held ⟨level, index * blockSize (level + 1) + blockSize level⟩ = some right →
    ForestNode.combinePreimage left right ∈ strings

theorem Hashed.mono {held : List ForestLeaf} {strings more : List Bytes}
    (h : Hashed held strings) (hsubset : strings ⊆ more) : Hashed held more :=
  ⟨fun leaf hleaf => hsubset (h.leaf leaf hleaf), fun hleft hright => hsubset (h.node hleft hright)⟩

theorem nodeAt_zero_eq_some {leaves : List ForestLeaf} {start : Nat} {node : ForestNode} :
    nodeAt leaves ⟨0, start⟩ = some node ↔
      ∃ leaf, leaves[start]? = some leaf ∧ leafNode leaf = node := by
  rw [nodeAt, block?, List.head?_drop, List.getElem?_map, Option.map_eq_some_iff]

section

variable {strings : List Bytes} (hfree : ¬ Collision strings) {held held' : List ForestLeaf}
  (hhashed : Hashed held strings) (hhashed' : Hashed held' strings)

include hfree

/-- A parent binds its children. -/
theorem combine_inj {left right left' right' : ForestNode}
    (hmem : ForestNode.combinePreimage left right ∈ strings)
    (hmem' : ForestNode.combinePreimage left' right' ∈ strings)
    (h : (left.combine right).hash = (left'.combine right').hash) :
    left.hash = left'.hash ∧ right = right' :=
  ForestNode.combinePreimage_inj (eq_of_digest_eq hfree hmem hmem' h)

include hhashed hhashed'

/-- **A hash binds the leaves of a block.** -/
theorem agree_of_nodeAt {level index : Nat} {node node' : ForestNode}
    (hnode : nodeAt held ⟨level, index * blockSize level⟩ = some node)
    (hnode' : nodeAt held' ⟨level, index * blockSize level⟩ = some node')
    (hsame : node.hash = node'.hash) :
    Agree held held' (index * blockSize level) ((index + 1) * blockSize level) := by
  induction level generalizing index node node' with
  | zero =>
    obtain ⟨leaf, hleaf, rfl⟩ := nodeAt_zero_eq_some.1 hnode
    obtain ⟨leaf', hleaf', rfl⟩ := nodeAt_zero_eq_some.1 hnode'
    have hmem := hhashed.leaf leaf (List.mem_of_getElem? hleaf)
    have hmem' := hhashed'.leaf leaf' (List.mem_of_getElem? hleaf')
    obtain ⟨hroot, hperiod⟩ :=
      ForestNode.leafPreimage_inj (eq_of_digest_eq hfree hmem hmem' hsame)
    rw [blockSize_zero, Nat.mul_one] at hleaf hleaf' ⊢
    intro i hle hlt
    obtain rfl : i = index := by omega
    rw [hleaf, hleaf', Prod.ext hroot hperiod]
  | succ level ih =>
    obtain ⟨left, right, hleft, hright, rfl⟩ := nodeAt_succ_eq_some.1 hnode
    obtain ⟨left', right', hleft', hright', rfl⟩ := nodeAt_succ_eq_some.1 hnode'
    obtain ⟨hhash, hnodes⟩ :=
      combine_inj hfree (hhashed.node hleft hright) (hhashed'.node hleft' hright') hsame
    -- the halves are the blocks of twice the index and of the next one
    have hfirst : index * blockSize (level + 1) = 2 * index * blockSize level := by
      rw [blockSize_succ]
      ring
    have hpast : (index + 1) * blockSize (level + 1) = (2 * index + 1 + 1) * blockSize level := by
      rw [blockSize_succ]
      ring
    rw [hfirst] at hleft hleft' hright hright'
    rw [← Nat.succ_mul] at hright hright'
    rw [hfirst, hpast]
    exact (ih hleft hleft' hhash).append (ih hright hright' (congrArg ForestNode.hash hnodes))

/-- Equal nodes over blocks side by side bind the leaves of all of them. -/
theorem agree_of_tiles {positions : List RootPosition} {first past : Nat}
    (htiles : Tiles positions first past) (hfit : past ≤ held.length)
    (hsame : positions.map (nodeAt held) = positions.map (nodeAt held')) :
    Agree held held' first past := by
  induction htiles with
  | nil n => exact .nil _ _ n
  | cons level index htiles ih =>
    rw [List.map_cons, List.map_cons] at hsame
    obtain ⟨hhead, htail⟩ := List.cons.inj hsame
    have hle := htiles.le
    obtain ⟨node, hnode⟩ := Option.isSome_iff_exists.1
      (isSome_nodeAt (p := ⟨level, index * blockSize level⟩) (Nat.le_trans hle hfit))
    have hblock := agree_of_nodeAt hfree hhashed hhashed' hnode (hhead.symm.trans hnode) rfl
    rw [Nat.succ_mul] at hblock
    exact hblock.append (ih hfit htail)

/-- **A climb to a node of the new forest went through its nodes**, and the old roots that it took in
stand over the same leaves there. -/
theorem agree_of_climb {up level index : Nat} {c top : Climb}
    (hclimb : climb up level c = .ok top) (hstart : c.start = index * blockSize level)
    (habsorb : c.absorb.map some = (leftNeighbours up level index).map (nodeAt held))
    (hstrings : climbPreimages up level c ⊆ strings) {node' : ForestNode}
    (htop : nodeAt held' ⟨level + up, top.start⟩ = some node') (hsame : top.node.hash = node'.hash) :
    ∃ node, nodeAt held' ⟨level, c.start⟩ = some node ∧ c.node.hash = node.hash ∧
      Agree held held' top.start c.start := by
  induction up generalizing level index c with
  | zero =>
    cases hclimb
    exact ⟨node', htop, hsame, .nil _ _ _⟩
  | succ up ih =>
    have hlevel : level + (up + 1) = level + 1 + up := by omega
    rw [hlevel] at htop
    by_cases hodd : index % 2 = 1
    · -- the parent in the new forest has the node that was taken in as its left child
      obtain ⟨left, absorb, hcons, hclimb⟩ := (climb_odd_eq_ok_iff hstart hodd).1 hclimb
      rw [climbPreimages_odd hstart hodd hcons, List.cons_subset] at hstrings
      obtain ⟨hmem, hstrings⟩ := hstrings
      rw [hcons, leftNeighbours, if_pos hodd, List.map_cons, List.map_cons] at habsorb
      obtain ⟨hleft, habsorb⟩ := List.cons.inj habsorb
      have hhalf := joinLeft_start hstart hodd left absorb
      obtain ⟨parent, hparent, hhash, hagree⟩ := ih hclimb hhalf habsorb hstrings htop
      rw [hhalf] at hparent hagree
      obtain ⟨left', right', hleft', hright', rfl⟩ := nodeAt_succ_eq_some.1 hparent
      obtain ⟨hlefts, rfl⟩ := combine_inj hfree hmem (hhashed'.node hleft' hright') hhash
      rw [half_mul_blockSize_odd hodd] at hleft' hright' hagree
      have hblock := agree_of_nodeAt hfree hhashed hhashed' hleft.symm hleft' hlefts
      rw [Nat.succ_mul] at hblock
      rw [pred_mul_add hodd, ← hstart] at hright' hblock
      exact ⟨_, hright', rfl, hagree.append hblock⟩
    · -- the parent has the node of the climb itself as its left child
      obtain ⟨right, siblings, hcons, hclimb⟩ := (climb_even_eq_ok_iff hstart hodd).1 hclimb
      rw [climbPreimages_even hstart hodd hcons, List.cons_subset] at hstrings
      obtain ⟨hmem, hstrings⟩ := hstrings
      rw [leftNeighbours, if_neg hodd] at habsorb
      have hhalf := joinRight_start hstart hodd right siblings
      obtain ⟨parent, hparent, hhash, hagree⟩ := ih hclimb hhalf habsorb hstrings htop
      rw [hhalf] at hparent hagree
      obtain ⟨left', right', hleft', hright', rfl⟩ := nodeAt_succ_eq_some.1 hparent
      obtain ⟨hlefts, -⟩ := combine_inj hfree hmem (hhashed'.node hleft' hright') hhash
      rw [half_mul_blockSize_even (by omega), ← hstart] at hleft' hagree
      exact ⟨left', hleft', hlefts, hagree⟩

end

end Forest

/-! ## Forests -/

namespace HistoryForest

theorem Holds.hashed {forest : HistoryForest} {held : List ForestLeaf} (h : forest.Holds held) :
    Hashed held forest.preimages := by
  constructor
  · intro leaf hleaf
    rw [preimages, h.leaves_eq]
    exact List.mem_append_left _ (List.mem_map_of_mem hleaf)
  · intro level index left right hleft hright
    have hjoin : (left, right) ∈ (towerOf held).joins := mem_joins_rows level index hleft hright
    rw [preimages, show forest.levels = _ from h]
    exact List.mem_append_right _ (List.mem_map.2 ⟨_, hjoin, rfl⟩)

section

variable {strings : List Bytes} {forest forest' : HistoryForest} {held held' : List ForestLeaf}

/-- A proof that verifies between two forests shows that the leaves of the one are a prefix of those of
the other. -/
theorem prefix_of_verify (hfree : ¬ Collision strings) (hheld : forest.Holds held)
    (hheld' : forest'.Holds held') {proof : ExtensionProof}
    (hverify : verifyExtension forest.digest forest'.digest proof = .ok ())
    (hhashed : Hashed held strings) (hhashed' : Hashed held' strings)
    (hproof : proof.preimages forest.digest forest'.digest ⊆ strings) : held <+: held' := by
  have hfit : held.length ≤ held.length := Nat.le_refl _
  have hfit' : held'.length ≤ held'.length := Nat.le_refl _
  rw [hheld.digest_eq, hheld'.digest_eq] at hverify hproof
  obtain ⟨-, hle, -, hsame⟩ := ExtensionProof.comparable_of_verify hverify
  simp only at hle hsame
  have hnodes := hheld.map_kept hfit held'.length
  rw [hsame, hheld'.map_kept_of_grown hfit'] at hnodes
  apply Agree.isPrefix
  rcases kept_or_merged hle with hkept | ⟨level, low, first, hmerged⟩
  · have hall : (rootPositions held.length).take (keptRoots held.length held'.length) =
        rootPositions held.length := by
      have htotal := List.take_append_drop (keptRoots held.length held'.length)
        (rootPositions held.length)
      rw [hkept, List.append_nil] at htotal
      exact htotal
    rw [hall] at hnodes
    exact agree_of_tiles hfree hhashed hhashed' (tiles_rootPositions _) hfit hnodes.symm
  · -- the leaves below the kept roots, those of the climb, and those of the last old root
    obtain ⟨node, absorb, hroots, hnode, habsorb⟩ := hheld.merged_roots hfit hmerged
    obtain ⟨-, top, hclimb, ⟨-, hstart⟩, -, htop⟩ :=
      (ExtensionProof.verify_eq_ok_iff_of_merged ⟨_, held.length⟩ ⟨_, held'.length⟩ hmerged.getLast?
        hmerged.new hroots).1 hverify
    rw [ExtensionProof.preimages] at hproof
    simp only [hroots, hmerged.getLast?, hmerged.new] at hproof
    have hnew : nodeAt held' ⟨low + (level - low), top.start⟩ = some top.node := by
      rw [hmerged.add_sub, hstart, htop, hheld'.getElem?_roots hfit' hmerged.new]
    obtain ⟨node', hnode', hhash, hclimbed⟩ :=
      agree_of_climb hfree hhashed hhashed' hclimb rfl habsorb hproof hnew rfl
    have hlast := agree_of_nodeAt hfree hhashed hhashed' hnode hnode' hhash
    have hfirst := agree_of_tiles hfree hhashed hhashed' hmerged.tiles hmerged.within hnodes.symm
    rw [hstart] at hclimbed
    rw [hmerged.last] at hlast
    exact hfirst.append (hclimbed.append hlast)

end

/-- **An extension proof binds the old leaves.**  A proof that verifies between the digests of two
forests shows that the leaves of the first are a prefix of those of the second, unless two of the
strings hashed collide. -/
theorem extension_sound (depth depth' : Nat) (leaves leaves' : List ForestLeaf)
    (proof : ExtensionProof)
    (hverify : verifyExtension ((empty depth).appendAll leaves).digest
      ((empty depth').appendAll leaves').digest proof = .ok ()) :
    ((empty depth).appendAll leaves).leaves <+: ((empty depth').appendAll leaves').leaves ∨
      Collision (((empty depth).appendAll leaves).preimages ++
        ((empty depth').appendAll leaves').preimages ++
        proof.preimages ((empty depth).appendAll leaves).digest
          ((empty depth').appendAll leaves').digest) := by
  obtain ⟨hheld, -⟩ := holds_appendAll depth leaves
  obtain ⟨hheld', -⟩ := holds_appendAll depth' leaves'
  generalize (empty depth).appendAll leaves = forest at hverify hheld ⊢
  generalize (empty depth').appendAll leaves' = forest' at hverify hheld' ⊢
  by_cases hfree : Collision (forest.preimages ++ forest'.preimages ++
      proof.preimages forest.digest forest'.digest)
  · exact .inr hfree
  · left
    rw [hheld.leaves_eq, hheld'.leaves_eq]
    refine prefix_of_verify hfree hheld hheld' hverify (hheld.hashed.mono ?_) (hheld'.hashed.mono ?_)
      (List.subset_append_right _ _)
    · exact List.subset_append_of_subset_left _ (List.subset_append_left _ _)
    · exact List.subset_append_of_subset_left _ (List.subset_append_right _ _)

/-- Three leaves and a fourth: the proof has the fourth, and the tree over the first two is taken in. -/
theorem extension_sound_three_of_four :
    let leaf (n : UInt64) : ForestLeaf := (Hash.zero, n)
    let old := (empty 2).appendAll [leaf 0, leaf 1, leaf 2]
    let new := (empty 2).appendAll [leaf 0, leaf 1, leaf 2, leaf 3]
    let proof : ExtensionProof := ⟨3, 4, [leafNode (leaf 3)]⟩
    verifyExtension old.digest new.digest proof = .ok () ∧
      (old.leaves <+: new.leaves ∨
        Collision (old.preimages ++ new.preimages ++ proof.preimages old.digest new.digest)) := by
  intro leaf old new proof
  have hverify : verifyExtension old.digest new.digest proof = .ok () := by decide +kernel
  exact ⟨hverify, extension_sound 2 2 _ _ proof hverify⟩

end HistoryForest

end KeyTransparency
