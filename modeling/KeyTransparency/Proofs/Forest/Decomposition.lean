import KeyTransparency.Proofs.Forest.Completeness
import Mathlib.Data.List.Forall2
import Mathlib.Data.List.Infix

/-!
# The digest of a forest is the binary decomposition of its leaves

`NodeOver block node` says by recursion on the block, and without any tower, which node stands over a
block of leaves: both halves of a larger block have a node, and these are combined.  `Decomposes` says
what the roots over some leaves are, without root positions: the leaves are cut into consecutive blocks,
one of `2^level` leaves for every bit `level` that is set in their number, the largest first, and each
root is the node over its block.  There is one such list of roots (`Decomposes.roots_unique`), and at
every size a forest answers it, however many leaves follow:

    n ≤ held.length → forest.digestAt n = ok digest ∧
      (Decomposition (held.take n) roots ↔ roots = digest.roots)    (digests_are_binary_decompositions)
-/

namespace KeyTransparency

open Tower

namespace Forest

/-! ## Nodes over blocks of leaves -/

/-- The node over a block of leaves. -/
inductive NodeOver : (block : List ForestLeaf) → (node : ForestNode) → Prop
  | leaf (leaf : ForestLeaf) : NodeOver [leaf] (leafNode leaf)
  | combine {left right : List ForestLeaf} {leftNode rightNode : ForestNode} :
      left.length = right.length → NodeOver left leftNode → NodeOver right rightNode →
      NodeOver (left ++ right) (ForestNode.combine leftNode rightNode)

namespace NodeOver

variable {block : List ForestLeaf} {node node' : ForestNode}

theorem length_pos (h : NodeOver block node) : 0 < block.length := by
  induction h with
  | leaf => exact Nat.one_pos
  | combine _ _ _ ihleft =>
    rw [List.length_append]
    exact Nat.add_pos_left ihleft _

/-- A block has one node. -/
theorem unique (h : NodeOver block node) (h' : NodeOver block node') : node = node' := by
  induction h generalizing node' with
  | leaf leaf =>
    generalize hsingle : [leaf] = block at h'
    cases h' with
    | leaf =>
      cases hsingle
      rfl
    | combine _ hleft hright =>
      have hlen := congrArg List.length hsingle
      have hl := hleft.length_pos
      have hr := hright.length_pos
      rw [List.length_singleton, List.length_append] at hlen
      omega
  | @combine left right _ _ heven hleft hright ihleft ihright =>
    generalize hboth : left ++ right = block at h'
    cases h' with
    | leaf =>
      have hlen := congrArg List.length hboth
      have hl := hleft.length_pos
      have hr := hright.length_pos
      rw [List.length_singleton, List.length_append] at hlen
      omega
    | @combine left' right' _ _ heven' hleft' hright' =>
      -- Both are cut in the middle.
      have hlen := congrArg List.length hboth
      rw [List.length_append, List.length_append] at hlen
      obtain ⟨rfl, rfl⟩ := List.append_inj hboth (by omega)
      rw [ihleft hleft', ihright hright']

/-- A node names the last leaf of its block. -/
theorem getLast? (h : NodeOver block node) : block.getLast? = some (node.newestLeaf, node.period) := by
  induction h with
  | leaf => rfl
  | combine _ _ _ _ ihright =>
    rw [List.getLast?_append, ihright]
    rfl

end NodeOver

/-- The leaves below a position. -/
def blockAt (leaves : List ForestLeaf) (p : RootPosition) : List ForestLeaf :=
  (leaves.drop p.start).take (blockSize p.level)

section

variable {leaves : List ForestLeaf}

theorem length_blockAt {p : RootPosition} (hfit : p.start + blockSize p.level ≤ leaves.length) :
    (blockAt leaves p).length = blockSize p.level := by
  rw [blockAt, List.length_take, List.length_drop]
  omega

theorem blockAt_succ (level start : Nat) :
    blockAt leaves ⟨level + 1, start⟩ =
      blockAt leaves ⟨level, start⟩ ++ blockAt leaves ⟨level, start + blockSize level⟩ := by
  rw [blockAt, blockSize_succ, Nat.two_mul, List.take_add, List.drop_drop]
  rfl

/-- The node found at a position stands over the leaves below it. -/
theorem nodeOver_of_nodeAt {level start : Nat} {node : ForestNode}
    (hfit : start + blockSize level ≤ leaves.length) (h : nodeAt leaves ⟨level, start⟩ = some node) :
    NodeOver (blockAt leaves ⟨level, start⟩) node := by
  induction level generalizing start node with
  | zero =>
    rw [nodeAt, block?, List.head?_drop, List.getElem?_map] at h
    obtain ⟨leaf, hleaf, rfl⟩ := Option.map_eq_some_iff.1 h
    obtain ⟨hlt, rfl⟩ := List.getElem?_eq_some_iff.1 hleaf
    rw [blockAt, List.drop_eq_getElem_cons hlt, blockSize_zero, List.take_succ_cons, List.take_zero]
    exact .leaf _
  | succ level ih =>
    rw [blockSize_succ] at hfit
    obtain ⟨left, right, hleft, hright, rfl⟩ := nodeAt_succ_eq_some.1 h
    have hl : start + blockSize level ≤ leaves.length := by omega
    have hr : start + blockSize level + blockSize level ≤ leaves.length := by omega
    rw [blockAt_succ]
    refine .combine ?_ (ih hl hleft) (ih hr hright)
    rw [length_blockAt hl, length_blockAt hr]

end

/-! ## Cutting leaves into blocks -/

/-- The roots over some leaves: the nodes over consecutive blocks, one for every set bit of the number
of leaves, the largest first. -/
structure Decomposes (leaves : List ForestLeaf) (levels : List Nat) (blocks : List (List ForestLeaf))
    (roots : List ForestNode) : Prop where
  descending : levels.Pairwise (· > ·)
  mem_levels (level : Nat) : level ∈ levels ↔ leaves.length.testBit level = true
  sizes : blocks.map List.length = levels.map (2 ^ ·)
  consecutive : blocks.flatten = leaves
  nodes : List.Forall₂ NodeOver blocks roots

def Decomposition (leaves : List ForestLeaf) (roots : List ForestNode) : Prop :=
  ∃ levels blocks, Decomposes leaves levels blocks roots

namespace Decomposes

variable {leaves : List ForestLeaf} {levels levels' : List Nat} {blocks blocks' : List (List ForestLeaf)}
  {roots roots' : List ForestNode}

theorem nodup (h : Decomposes leaves levels blocks roots) : levels.Nodup :=
  h.descending.imp fun hlt => Nat.ne_of_gt hlt

theorem levels_unique (h : Decomposes leaves levels blocks roots)
    (h' : Decomposes leaves levels' blocks' roots') : levels = levels' := by
  have hperm := (List.perm_ext_iff_of_nodup h.nodup h'.nodup).2 fun level =>
    (h.mem_levels level).trans (h'.mem_levels level).symm
  refine hperm.eq_of_pairwise (fun a b _ _ hab hba => ?_) h.descending h'.descending
  exact absurd hab (Nat.lt_asymm hba)

theorem blocks_unique (h : Decomposes leaves levels blocks roots)
    (h' : Decomposes leaves levels' blocks' roots') : blocks = blocks' := by
  have hlevels := h.levels_unique h'
  subst hlevels
  exact List.eq_iff_flatten_eq.2
    ⟨h.consecutive.trans h'.consecutive.symm, h.sizes.trans h'.sizes.symm⟩

/-- Some leaves have one list of roots. -/
theorem roots_unique (h : Decomposes leaves levels blocks roots)
    (h' : Decomposes leaves levels' blocks' roots') : roots = roots' := by
  have hblocks := h.blocks_unique h'
  subst hblocks
  exact List.right_unique_forall₂' (fun _ _ _ hb hc => hb.unique hc) h.nodes h'.nodes

end Decomposes

/-! ## Root positions -/

theorem mem_levels_positionsBelow {size level start k : Nat} :
    k ∈ (positionsBelow size level start).map RootPosition.level ↔ k < level ∧ size.testBit k = true := by
  induction level generalizing start with
  | zero => simp [positionsBelow]
  | succ level ih =>
    have hlevel (hbit : size.testBit k = true) : k < level + 1 ↔ k = level ∨ k < level := by omega
    rw [positionsBelow]
    by_cases hbit : size.testBit level = true
    · rw [if_pos hbit, List.map_cons, List.mem_cons, ih]
      constructor
      · rintro (rfl | ⟨hlt, hk⟩)
        · exact ⟨Nat.lt_succ_self _, hbit⟩
        · exact ⟨Nat.lt_succ_of_lt hlt, hk⟩
      · rintro ⟨hlt, hk⟩
        exact ((hlevel hk).1 hlt).imp_right fun hlt => ⟨hlt, hk⟩
    · rw [if_neg hbit, ih]
      constructor
      · rintro ⟨hlt, hk⟩
        exact ⟨Nat.lt_succ_of_lt hlt, hk⟩
      · rintro ⟨hlt, hk⟩
        rcases (hlevel hk).1 hlt with rfl | hlt
        · exact absurd hk hbit
        · exact ⟨hlt, hk⟩

theorem descending_positionsBelow (size level start : Nat) :
    ((positionsBelow size level start).map RootPosition.level).Pairwise (· > ·) := by
  induction level generalizing start with
  | zero => exact .nil
  | succ level ih =>
    rw [positionsBelow]
    split
    · exact .cons (fun k hk => (mem_levels_positionsBelow.1 hk).1) (ih _)
    · exact ih _

/-- There is a root of a level for every bit that is set. -/
theorem mem_levels_rootPositions {size k : Nat} :
    k ∈ (rootPositions size).map RootPosition.level ↔ size.testBit k = true := by
  rw [rootPositions, mem_levels_positionsBelow]
  refine ⟨And.right, fun hbit => ⟨?_, hbit⟩⟩
  -- above the highest bit none is set
  by_contra hlt
  have hsmall : size < 2 ^ k :=
    Nat.lt_of_lt_of_le (lt_blockSize_log2 size) (blockSize_mono (Nat.le_of_not_lt hlt))
  rw [Nat.testBit_lt_two_pow hsmall] at hbit
  cases hbit

/-- The blocks of a tiling, one after the other, are the leaves that it covers. -/
theorem Tiles.flatten_blocks {leaves : List ForestLeaf} {positions : List RootPosition}
    {first past : Nat} (h : Tiles positions first past) (hfit : past ≤ leaves.length) :
    (positions.map (blockAt leaves)).flatten = (leaves.take past).drop first := by
  induction h with
  | nil n => rw [List.drop_eq_nil_of_le (List.length_take_le n leaves)]; rfl
  | @cons positions past level index h ih =>
    have hle := h.le
    rw [List.map_cons, List.flatten_cons, ih hfit, blockAt, ← List.drop_drop]
    have hfront : (leaves.drop (index * blockSize level)).take (blockSize level) =
        ((leaves.take past).drop (index * blockSize level)).take (blockSize level) := by
      rw [List.drop_take, List.take_take, Nat.min_eq_left (by omega)]
    dsimp only
    rw [hfront, List.take_append_drop]

end Forest

namespace HistoryForest

open Forest

namespace Holds

variable {forest : HistoryForest} {held : List ForestLeaf}

/-- **The roots at a size decompose the leaves that were there.** -/
theorem decomposes_roots (h : forest.Holds held) {n : Nat} (hfit : n ≤ held.length) :
    Decomposes (held.take n) ((rootPositions n).map RootPosition.level)
      ((rootPositions n).map (blockAt held)) (forest.roots n) := by
  have hlength : (held.take n).length = n := by
    rw [List.length_take, Nat.min_eq_left hfit]
  have hends {p : RootPosition} (hp : p ∈ rootPositions n) :
      p.start + blockSize p.level ≤ held.length := by
    obtain ⟨_, -, hend⟩ := (tiles_rootPositions n).block hp
    exact Nat.le_trans hend hfit
  refine ⟨descending_positionsBelow _ _ _, fun level => ?_, ?_, ?_, ?_⟩
  · rw [hlength]
    exact mem_levels_rootPositions
  · rw [List.map_map, List.map_map]
    exact List.map_congr_left fun p hp => length_blockAt (hends hp)
  · exact (tiles_rootPositions n).flatten_blocks hfit
  · rw [List.forall₂_map_left_iff, List.forall₂_iff_get]
    refine ⟨(h.length_roots hfit).symm, fun i hi hroot => ?_⟩
    have hnode := h.getElem?_roots hfit (List.getElem?_eq_getElem hi)
    rw [List.getElem?_eq_getElem hroot] at hnode
    exact nodeOver_of_nodeAt (hends (List.getElem_mem hi)) hnode.symm

theorem decomposition_iff (h : forest.Holds held) {n : Nat} (hfit : n ≤ held.length)
    {roots : List ForestNode} : Decomposition (held.take n) roots ↔ roots = forest.roots n := by
  have hroots := h.decomposes_roots hfit
  constructor
  · rintro ⟨_, _, hother⟩
    exact hother.roots_unique hroots
  · rintro rfl
    exact ⟨_, _, hroots⟩

end Holds

/-- Leaves that are offered later come behind those that are held. -/
theorem appendAll_append (forest : HistoryForest) (leaves more : List ForestLeaf) :
    (forest.appendAll leaves).appendAll more = forest.appendAll (leaves ++ more) := by
  rw [appendAll, appendAll, appendAll, List.foldl_append]

/-- A forest that is full refuses a leaf and stays; any other takes it as one more of those that it was
offered. -/
theorem append_appendAll (depth : Nat) (leaves : List ForestLeaf) (leaf : ForestLeaf) :
    let forest := (empty depth).appendAll leaves
    let held := leaves.take (capacityOf depth)
    if held.length = capacityOf depth then
      forest.append leaf.1 leaf.2 = .error (.historyFull (capacityOf depth)) ∧ forest.offer leaf = forest
    else forest.append leaf.1 leaf.2 = .ok ((empty depth).appendAll (held ++ [leaf])) := by
  intro forest held
  obtain ⟨hholds, hdepth⟩ : forest.Holds held ∧ forest.depth = depth := holds_appendAll depth leaves
  have hcapacity : forest.capacity = capacityOf depth := by rw [capacity, hdepth]
  have hlength : held.length = min (capacityOf depth) leaves.length := List.length_take
  split
  · next hfull =>
    have happend := hholds.append_full (Nat.le_of_eq (hcapacity.trans hfull.symm)) leaf
    rw [hcapacity] at happend
    exact ⟨happend, by rw [offer, happend]⟩
  · next hroom =>
    obtain ⟨next, hnext, -, -⟩ := hholds.append (by omega) leaf
    have hall : held = leaves := List.take_of_length_le (by omega)
    have hoffer : forest.offer leaf = next := by rw [offer, hnext]
    rw [hnext, hall, ← appendAll_append, ← hoffer]
    rfl

/-- **The digests of a forest are binary decompositions.**  A forest takes leaves until there are so many
as two to the power of its depth, the depth taken modulo the 64 bits of a word, and refuses all others
without a change.  At each size up to its own, its digest holds the one list of roots that decomposes so
many of its first leaves, and each root names the last leaf of its block; leaves that are offered later
do not change the digest. -/
theorem digests_are_binary_decompositions (depth : Nat) (leaves more : List ForestLeaf) :
    let forest := (empty depth).appendAll leaves
    let held := leaves.take (2 ^ (depth % 64))
    (forest.size = held.length ∧ forest.leaves = held ∧
      ∀ leaf, if held.length = 2 ^ (depth % 64) then
          forest.append leaf.1 leaf.2 = .error (.historyFull (2 ^ (depth % 64))) ∧
            forest.offer leaf = forest
        else forest.append leaf.1 leaf.2 = .ok ((empty depth).appendAll (held ++ [leaf]))) ∧
    forest.digestAt forest.size = .ok forest.digest ∧
    ∀ n ≤ held.length, ∃ digest, forest.digestAt n = .ok digest ∧
      (forest.appendAll more).digestAt n = .ok digest ∧ digest.size = n ∧
      (∀ roots, Decomposition (held.take n) roots ↔ roots = digest.roots) ∧
      ∃ levels blocks, Decomposes (held.take n) levels blocks digest.roots ∧
        List.Forall₂ (fun block root => block.getLast? = some (root.newestLeaf, root.period)) blocks
          digest.roots := by
  intro forest held
  have hword := capacityOf_eq depth
  have hholds : forest.Holds held := by
    have h := (holds_appendAll depth leaves).1
    rwa [hword] at h
  refine ⟨⟨hholds.size_eq, hholds.leaves_eq, fun leaf => ?_⟩, ?_, fun n hn => ?_⟩
  · have happend := append_appendAll depth leaves leaf
    rwa [hword] at happend
  · rw [hholds.size_eq, hholds.digestAt_eq (Nat.le_refl _), hholds.digest_eq]
  · have hlater : (forest.appendAll more).Holds ((leaves ++ more).take (2 ^ (depth % 64))) := by
      rw [appendAll_append, ← hword]
      exact (holds_appendAll depth (leaves ++ more)).1
    have hbegins : held <+: (leaves ++ more).take (2 ^ (depth % 64)) :=
      List.IsPrefix.take (List.prefix_append leaves more) _
    have hn' := Nat.le_trans hn hbegins.length_le
    have hroots := hholds.decomposes_roots hn
    refine ⟨⟨forest.roots n, n⟩, hholds.digestAt_eq hn, ?_, rfl, fun roots =>
      hholds.decomposition_iff hn, _, _, hroots, hroots.nodes.imp fun _ _ => NodeOver.getLast?⟩
    rw [hlater.digestAt_eq hn', hholds.roots_of_prefix hlater hbegins hn]

/-- Five leaves are offered to a forest for four: the last is refused, and the digest at three has one
root over two leaves and one over the third. -/
theorem digests_are_binary_decompositions_three_of_four :
    let leaf (n : UInt64) : ForestLeaf := (Hash.zero, n)
    let forest := (empty 2).appendAll [leaf 0, leaf 1, leaf 2, leaf 3, leaf 4]
    3 ≤ [leaf 0, leaf 1, leaf 2, leaf 3].length ∧
      (forest.append Hash.zero 5 = .error (.historyFull 4) ∧ forest.offer (leaf 5) = forest) ∧
      ∃ digest, forest.digestAt 3 = .ok digest ∧ digest.roots =
        [ForestNode.combine (leafNode (leaf 0)) (leafNode (leaf 1)), leafNode (leaf 2)] := by
  intro leaf forest
  obtain ⟨⟨-, -, happend⟩, -, hdigests⟩ := digests_are_binary_decompositions 2
    [leaf 0, leaf 1, leaf 2, leaf 3, leaf 4] []
  have hn : 3 ≤ [leaf 0, leaf 1, leaf 2, leaf 3].length := by decide
  obtain ⟨digest, hdigest, -, -, hroots, -⟩ := hdigests 3 hn
  refine ⟨hn, (if_pos rfl).mp (happend (leaf 5)), digest, hdigest, ((hroots _).1 ?_).symm⟩
  have hleft : NodeOver ([leaf 0] ++ [leaf 1]) _ := .combine rfl (.leaf _) (.leaf _)
  refine ⟨[1, 0], [[leaf 0, leaf 1], [leaf 2]], ?_, fun level => ?_, rfl, rfl,
    .cons hleft (.cons (.leaf _) .nil)⟩
  · decide
  · have hlevels : (rootPositions 3).map RootPosition.level = [1, 0] := by decide
    rw [← hlevels]
    exact mem_levels_rootPositions

/-- A forest of depth 64 is full with its first leaf. -/
theorem second_leaf_refused :
    let forest := (empty 64).appendAll [(Hash.zero, 0)]
    forest.size = 1 ∧ forest.size ≠ 2 ^ forest.depth ∧
      forest.append Hash.zero 1 = .error (.historyFull 1) := by
  intro forest
  obtain ⟨hholds, hdepth⟩ : forest.Holds [(Hash.zero, 0)] ∧ forest.depth = 64 :=
    holds_appendAll 64 [(Hash.zero, 0)]
  have hcapacity : forest.capacity = 1 := by
    rw [capacity, hdepth]
    rfl
  have hrefused := hholds.append_full (Nat.le_of_eq hcapacity) (Hash.zero, 1)
  rw [hcapacity] at hrefused
  refine ⟨hholds.size_eq, ?_, hrefused⟩
  rw [hholds.size_eq, hdepth]
  decide

end HistoryForest

end KeyTransparency
