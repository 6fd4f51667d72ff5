import KeyTransparency.Proofs.Forest.Positions
import Mathlib.Data.List.Induction

/-!
# The blocks of a forest

A forest that took some leaves keeps their tower, so each of its roots is the node over the block of
leaves that its position names:

    ((empty depth).appendAll leaves).Holds (leaves.take (capacityOf depth))          (holds_appendAll)
    forest.Holds held → n ≤ held.length →
      (forest.roots n).map some = (rootPositions n).map (nodeAt held)               (Holds.map_roots)
-/

namespace KeyTransparency

open Tower

/-- The base-trie root of a settled period, and the period. -/
abbrev ForestLeaf := Hash × UInt64

namespace Forest

def leafNode (leaf : ForestLeaf) : ForestNode := ForestNode.leaf leaf.1 leaf.2

/-- The tower over a list of leaves. -/
def towerOf (leaves : List ForestLeaf) : Tower ForestNode :=
  rows ForestNode.combine (leaves.map leafNode)

/-- The node over the block of leaves at a position. -/
def nodeAt (leaves : List ForestLeaf) (p : RootPosition) : Option ForestNode :=
  block? ForestNode.combine p.level ((leaves.map leafNode).drop p.start)

section

variable {leaves : List ForestLeaf}

theorem isSome_nodeAt {p : RootPosition} (h : p.start + blockSize p.level ≤ leaves.length) :
    (nodeAt leaves p).isSome := by
  rw [nodeAt, isSome_block?, List.length_drop, List.length_map]
  omega

theorem nodeAt_succ_eq_some {level start : Nat} {node : ForestNode} :
    nodeAt leaves ⟨level + 1, start⟩ = some node ↔
      ∃ left right, nodeAt leaves ⟨level, start⟩ = some left ∧
        nodeAt leaves ⟨level, start + blockSize level⟩ = some right ∧
        node = ForestNode.combine left right := by
  rw [nodeAt, block?_succ_eq_some, nodeAt, nodeAt, ← List.drop_drop]

/-- The last leaf of the block at a position. -/
def lastLeaf (p : RootPosition) : Nat := p.start + blockSize p.level - 1

/-- Blocks side by side end one after the other. -/
theorem Tiles.pairwise_lastLeaf {positions : List RootPosition} {first past : Nat}
    (h : Tiles positions first past) :
    positions.Pairwise fun earlier later => lastLeaf earlier < lastLeaf later := by
  induction h with
  | nil => exact .nil
  | cons level index h ih =>
    apply List.Pairwise.cons _ ih
    intro p hp
    have hstart := h.le_start hp
    have hpos := blockSize_pos p.level
    have hpos' := blockSize_pos level
    rw [lastLeaf, lastLeaf]
    dsimp only
    omega

/-- A node names the last leaf below it. -/
theorem newest_of_nodeAt {level start : Nat} {node : ForestNode}
    (h : nodeAt leaves ⟨level, start⟩ = some node) :
    leaves[lastLeaf ⟨level, start⟩]? = some (node.newestLeaf, node.period) := by
  induction level generalizing start node with
  | zero =>
    rw [nodeAt, block?, List.head?_drop, List.getElem?_map] at h
    obtain ⟨leaf, hleaf, rfl⟩ := Option.map_eq_some_iff.1 h
    exact hleaf
  | succ level ih =>
    obtain ⟨left, right, -, hright, rfl⟩ := nodeAt_succ_eq_some.1 h
    have hlast : lastLeaf ⟨level + 1, start⟩ = lastLeaf ⟨level, start + blockSize level⟩ := by
      simp only [lastLeaf, blockSize_succ]
      omega
    have hnewest := ih hright
    rw [hlast]
    exact hnewest

/-- More leaves leave the nodes over the first ones as they are. -/
theorem nodeAt_of_prefix {leaves' : List ForestLeaf} (hbegins : leaves <+: leaves') {level start : Nat}
    {node : ForestNode} (h : nodeAt leaves ⟨level, start⟩ = some node) :
    nodeAt leaves' ⟨level, start⟩ = some node := by
  induction level generalizing start node with
  | zero =>
    rw [nodeAt, block?, List.head?_drop, List.getElem?_map] at h ⊢
    obtain ⟨leaf, hleaf, rfl⟩ := Option.map_eq_some_iff.1 h
    obtain ⟨more, rfl⟩ := hbegins
    obtain ⟨hlt, -⟩ := List.getElem?_eq_some_iff.1 hleaf
    rw [List.getElem?_append_left hlt, hleaf, Option.map_some]
  | succ level ih =>
    obtain ⟨left, right, hleft, hright, rfl⟩ := nodeAt_succ_eq_some.1 h
    exact nodeAt_succ_eq_some.2 ⟨left, right, ih hleft, ih hright, rfl⟩

/-- A look-up in the tower finds the node of the block. -/
theorem node?_towerOf (level index : Nat) :
    (towerOf leaves).node? level index = nodeAt leaves ⟨level, index * blockSize level⟩ := by
  rw [towerOf, node?_rows, nodeAt]

end

end Forest

namespace HistoryForest

open Forest

/-! ## Forests built by appending -/

/-- The shift takes the depth modulo the 64 bits of a word. -/
theorem capacityOf_eq (depth : Nat) : capacityOf depth = 2 ^ (depth % 64) := by
  have hcount : (UInt64.ofNat depth).toNat % 64 = depth % 64 := by
    rw [UInt64.toNat_ofNat', Nat.mod_mod_of_dvd _ (by decide)]
  have hfits : 2 ^ (depth % 64) < 2 ^ 64 :=
    Nat.pow_lt_pow_right Nat.one_lt_two (Nat.mod_lt _ (by decide))
  rw [capacityOf, UInt64.toNat_shiftLeft, hcount, UInt64.toNat_one, Nat.one_shiftLeft,
    Nat.mod_eq_of_lt hfits]

theorem capacityOf_of_lt {depth : Nat} (h : depth < 64) : capacityOf depth = 2 ^ depth := by
  rw [capacityOf_eq, Nat.mod_eq_of_lt h]

theorem capacityOf_pos (depth : Nat) : 0 < capacityOf depth := by
  rw [capacityOf_eq]
  exact Nat.two_pow_pos _

/-- The forest after trying to append a leaf; a refused leaf changes nothing. -/
def offer (forest : HistoryForest) (leaf : ForestLeaf) : HistoryForest :=
  match forest.append leaf.1 leaf.2 with
  | .ok next => next
  | .error _ => forest

/-- The forest after trying to append one leaf after the other. -/
def appendAll (forest : HistoryForest) (leaves : List ForestLeaf) : HistoryForest :=
  leaves.foldl offer forest

/-- The leaves that a forest holds. -/
def leaves (forest : HistoryForest) : List ForestLeaf :=
  (forest.levels.headD #[]).toList.map fun node => (node.newestLeaf, node.period)

/-- The forest keeps the tower over the leaves. -/
def Holds (forest : HistoryForest) (leaves : List ForestLeaf) : Prop :=
  forest.levels = towerOf leaves

theorem headD_rows {α : Type} (combine : α → α → α) (leaves : List α) :
    (rows combine leaves).headD #[] = leaves.toArray := by
  cases leaves with
  | nil => rw [rows_nil]; rfl
  | cons leaf more => rw [rows]; rfl

namespace Holds

variable {forest : HistoryForest} {held : List ForestLeaf}

theorem leaves_eq (h : forest.Holds held) : forest.leaves = held := by
  have hid : (fun leaf => ((leafNode leaf).newestLeaf, (leafNode leaf).period)) = id := rfl
  rw [leaves, show forest.levels = _ from h, towerOf, headD_rows, List.map_map]
  exact (congrArg (List.map · held) hid).trans (List.map_id held)

theorem size_eq (h : forest.Holds held) : forest.size = held.length := by
  rw [size, show forest.levels = _ from h, towerOf, Tower.size, headD_rows, List.size_toArray,
    List.length_map]

/-- A forest that is not full takes a leaf. -/
theorem append (h : forest.Holds held) (hroom : held.length < forest.capacity)
    (leaf : ForestLeaf) :
    ∃ next, forest.append leaf.1 leaf.2 = .ok next ∧ next.Holds (held ++ [leaf]) ∧
      next.depth = forest.depth := by
  have hfull : ¬ forest.isFull = true := by
    rw [isFull, decide_eq_true_eq, h.size_eq]
    exact Nat.not_le.2 hroom
  rw [HistoryForest.append, if_neg hfull]
  refine ⟨_, rfl, ?_, rfl⟩
  rw [Holds, show forest.levels = _ from h, towerOf, push_rows, towerOf, List.map_append]
  rfl

theorem append_full (h : forest.Holds held) (hfull : forest.capacity ≤ held.length)
    (leaf : ForestLeaf) :
    forest.append leaf.1 leaf.2 = .error (.historyFull forest.capacity) := by
  have hisFull : forest.isFull = true := by
    rw [isFull, decide_eq_true_eq, h.size_eq]
    exact hfull
  rw [HistoryForest.append, if_pos hisFull]

end Holds

/-- A forest takes leaves until it is full. -/
theorem holds_appendAll (depth : Nat) (leaves : List ForestLeaf) :
    ((empty depth).appendAll leaves).Holds (leaves.take (capacityOf depth)) ∧
      ((empty depth).appendAll leaves).depth = depth := by
  induction leaves using List.reverseRecOn with
  | nil =>
    refine ⟨?_, rfl⟩
    rw [List.take_nil, Holds, towerOf, List.map_nil, rows_nil]
    rfl
  | append_singleton leaves leaf ih =>
    obtain ⟨hholds, hdepth⟩ := ih
    rw [appendAll, List.foldl_append, List.foldl_cons, List.foldl_nil, ← appendAll, offer]
    generalize (empty depth).appendAll leaves = forest at hholds hdepth
    subst hdepth
    by_cases hroom : leaves.length < capacityOf forest.depth
    · have hall : leaves.take (capacityOf forest.depth) = leaves :=
        List.take_of_length_le (Nat.le_of_lt hroom)
      rw [hall] at hholds
      obtain ⟨next, hnext, hholds', hdepth'⟩ := hholds.append hroom leaf
      rw [hnext, List.take_of_length_le (by rw [List.length_append, List.length_singleton]; omega)]
      exact ⟨hholds', hdepth'⟩
    · have hfull : capacityOf forest.depth ≤ (leaves.take (capacityOf forest.depth)).length := by
        rw [List.length_take]
        omega
      rw [hholds.append_full hfull, List.take_append_of_le_length (by omega)]
      exact ⟨hholds, rfl⟩

/-! ## Roots -/

/-- Look-ups that all hit leave nothing out. -/
theorem map_some_filterMap {α β : Type} {f : α → Option β} {as : List α}
    (h : ∀ a ∈ as, (f a).isSome) : (as.filterMap f).map some = as.map f := by
  induction as with
  | nil => rfl
  | cons a as ih =>
    obtain ⟨b, hb⟩ := Option.isSome_iff_exists.1 (h a List.mem_cons_self)
    rw [List.filterMap_cons_some hb, List.map_cons, List.map_cons, hb,
      ih fun a ha => h a (List.mem_cons_of_mem _ ha)]

namespace Holds

variable {forest : HistoryForest} {held : List ForestLeaf}

/-- The look-up of a root finds the node at its position. -/
theorem node?_root (h : forest.Holds held) {n : Nat} {p : RootPosition} (hp : p ∈ rootPositions n) :
    forest.levels.node? p.level (p.start / blockSize p.level) = nodeAt held p := by
  obtain ⟨index, hstart, -⟩ := (tiles_rootPositions n).block hp
  rw [show forest.levels = _ from h, node?_towerOf, hstart, Nat.mul_div_cancel _ (blockSize_pos p.level),
    ← hstart]

theorem isSome_root (h : forest.Holds held) {n : Nat} (hfit : n ≤ held.length) {p : RootPosition}
    (hp : p ∈ rootPositions n) :
    (forest.levels.node? p.level (p.start / blockSize p.level)).isSome := by
  obtain ⟨index, -, hend⟩ := (tiles_rootPositions n).block hp
  rw [h.node?_root hp]
  exact isSome_nodeAt (Nat.le_trans hend hfit)

/-- **The roots of a forest are the nodes over the blocks of its size.** -/
theorem map_roots (h : forest.Holds held) {n : Nat} (hfit : n ≤ held.length) :
    (forest.roots n).map some = (rootPositions n).map (nodeAt held) := by
  rw [roots, map_some_filterMap fun p hp => h.isSome_root hfit hp]
  exact List.map_congr_left fun p hp => h.node?_root hp

/-- A forest that has grown has the roots that it had. -/
theorem roots_of_prefix {forest' : HistoryForest} {held' : List ForestLeaf} (h : forest.Holds held)
    (h' : forest'.Holds held') (hbegins : held <+: held') {n : Nat} (hfit : n ≤ held.length) :
    forest'.roots n = forest.roots n := by
  apply List.map_injective_iff.2 (Option.some_injective _)
  rw [h.map_roots hfit, h'.map_roots (Nat.le_trans hfit hbegins.length_le)]
  apply List.map_congr_left
  intro p hp
  obtain ⟨-, -, hend⟩ := (tiles_rootPositions n).block hp
  obtain ⟨node, hnode⟩ := Option.isSome_iff_exists.1 (isSome_nodeAt (Nat.le_trans hend hfit))
  rw [hnode]
  exact nodeAt_of_prefix hbegins hnode

/-- **The roots of a forest name the last leaves of its blocks.** -/
theorem map_newest (h : forest.Holds held) {n : Nat} (hfit : n ≤ held.length) :
    (forest.roots n).map (fun root => some (root.newestLeaf, root.period)) =
      (rootPositions n).map fun p => held[lastLeaf p]? := by
  have hnewest : ∀ (roots : List ForestNode) (positions : List RootPosition),
      roots.map some = positions.map (nodeAt held) →
        roots.map (fun root => some (root.newestLeaf, root.period)) =
          positions.map fun p => held[lastLeaf p]? := by
    intro roots
    induction roots with
    | nil =>
      intro positions hroots
      rw [List.map_eq_nil_iff.1 hroots.symm]
      rfl
    | cons root roots ih =>
      intro positions hroots
      obtain ⟨p, positions, rfl, hroot, hrest⟩ := List.map_eq_cons_iff.1 hroots.symm
      rw [List.map_cons, List.map_cons, ih positions hrest.symm, newest_of_nodeAt hroot]
  exact hnewest _ _ (h.map_roots hfit)

theorem digest_eq (h : forest.Holds held) :
    forest.digest = ⟨forest.roots held.length, held.length⟩ := by
  rw [digest, h.size_eq]

theorem length_roots (h : forest.Holds held) {n : Nat} (hfit : n ≤ held.length) :
    (forest.roots n).length = (rootPositions n).length := by
  have hlen := congrArg List.length (h.map_roots hfit)
  rw [List.length_map, List.length_map] at hlen
  exact hlen

theorem getElem?_roots (h : forest.Holds held) {n : Nat} (hfit : n ≤ held.length) {i : Nat}
    {p : RootPosition} (hp : (rootPositions n)[i]? = some p) :
    (forest.roots n)[i]? = nodeAt held p := by
  have hget := congrArg (·[i]?) (h.map_roots hfit)
  simp only [List.getElem?_map, hp, Option.map_some] at hget
  obtain ⟨node, hroot, hnode⟩ := Option.map_eq_some_iff.1 hget
  rw [hroot, hnode]

/-- The roots that a forest of `m` leaves keeps. -/
theorem map_kept (h : forest.Holds held) {m : Nat} (hfit : m ≤ held.length) (n : Nat) :
    ((forest.roots m).take (keptRoots m n)).map some =
      ((rootPositions m).take (keptRoots m n)).map (nodeAt held) := by
  rw [List.map_take, h.map_roots hfit, ← List.map_take]

/-- The roots that a forest of `n` leaves has from the time when there were `m`. -/
theorem map_kept_of_grown (h : forest.Holds held) {n : Nat} (hfit : n ≤ held.length) (m : Nat) :
    ((forest.roots n).take (keptRoots m n)).map some =
      ((rootPositions m).take (keptRoots m n)).map (nodeAt held) := by
  rw [List.map_take, h.map_roots hfit, ← List.map_take, keptRoots, take_agreement]

/-- The roots that are merged are the nodes that a climb from the last one starts with. -/
theorem merged_roots (h : forest.Holds held) {m n level low first : Nat} (hfit : m ≤ held.length)
    (hmerged : Merged m n level low first) :
    ∃ node absorb, ((forest.roots m).drop (keptRoots m n)).reverse = node :: absorb ∧
      nodeAt held ⟨low, first * blockSize low⟩ = some node ∧
      absorb.map some = (leftNeighbours (level - low) low first).map (nodeAt held) := by
  have hnodes : (((forest.roots m).drop (keptRoots m n)).reverse).map some =
      nodeAt held ⟨low, first * blockSize low⟩ ::
        (leftNeighbours (level - low) low first).map (nodeAt held) := by
    rw [List.map_reverse, List.map_drop, h.map_roots hfit, ← List.map_drop, ← List.map_reverse,
      hmerged.old, List.map_cons]
  obtain ⟨node, absorb, hcons, hnode, habsorb⟩ := List.map_eq_cons_iff.1 hnodes
  exact ⟨node, absorb, hcons, hnode.symm, habsorb⟩

end Holds

end HistoryForest

end KeyTransparency
