import KeyTransparency.Tower
import Mathlib.Data.List.Basic
import Mathlib.Tactic.Ring

/-!
# What a tower holds

The rows of a tower that leaves were pushed on one by one are those of the whole list of leaves: each
row pairs up the neighbours of the row below.  So a look-up finds the node over the block of leaves
that it asks for, or nothing when the block is not complete.

    push combine (rows combine leaves) leaf = rows combine (leaves ++ [leaf])        (push_rows)
    (rows combine leaves).node? level index =
      block? combine level (leaves.drop (index * blockSize level))                   (node?_rows)

`joins` lists the pairs that were combined on the way; both halves of every complete block are among
them (`mem_joins_rows`).
-/

namespace KeyTransparency

namespace Tower

variable {α : Type}

/-! ## Block sizes -/

@[simp] theorem blockSize_zero : blockSize 0 = 1 := rfl

theorem blockSize_succ (level : Nat) : blockSize (level + 1) = 2 * blockSize level := Nat.pow_succ'

theorem blockSize_pos (level : Nat) : 0 < blockSize level := Nat.two_pow_pos level

theorem blockSize_add (level up : Nat) :
    blockSize (level + up) = blockSize level * blockSize up := Nat.pow_add 2 level up

theorem blockSize_mono {j k : Nat} (h : j ≤ k) : blockSize j ≤ blockSize k :=
  Nat.pow_le_pow_right (by omega) h

/-- No block size lies between one and its double. -/
theorem blockSize_le_or (j k : Nat) : blockSize j ≤ blockSize k ∨ 2 * blockSize k ≤ blockSize j := by
  rcases Nat.lt_or_ge k j with h | h
  · right
    rw [← blockSize_succ]
    exact blockSize_mono h
  · exact Or.inl (blockSize_mono h)

theorem log2_eq {n level : Nat} (hlow : blockSize level ≤ n) (hhigh : n < 2 * blockSize level) :
    Nat.log2 n = level := by
  have := blockSize_pos level
  rw [← blockSize_succ] at hhigh
  exact (Nat.log2_eq_iff (by omega)).2 ⟨hlow, hhigh⟩

/-! ## Rows -/

/-- The neighbours of a row, two by two; a last node without a partner is left out. -/
def neighbours : List α → List (α × α)
  | [] => []
  | [_] => []
  | a :: b :: rest => (a, b) :: neighbours rest

/-- The row above a row. -/
def pairUp (combine : α → α → α) (row : List α) : List α :=
  (neighbours row).map fun pair => combine pair.1 pair.2

theorem length_neighbours (row : List α) : (neighbours row).length = row.length / 2 := by
  induction row using neighbours.induct with
  | case1 => simp [neighbours]
  | case2 a => simp [neighbours]
  | case3 a b rest ih =>
    rw [neighbours, List.length_cons, ih]
    simp only [List.length_cons]
    omega

theorem length_pairUp (combine : α → α → α) (row : List α) :
    (pairUp combine row).length = row.length / 2 := by
  rw [pairUp, List.length_map, length_neighbours]

/-- The tower over a list of leaves. -/
def rows (combine : α → α → α) (leaves : List α) : Tower α :=
  match leaves with
  | [] => []
  | leaf :: more => (leaf :: more).toArray :: rows combine (pairUp combine (leaf :: more))
termination_by leaves.length
decreasing_by
  rw [length_pairUp]
  simp only [List.length_cons]
  omega

theorem rows_nil (combine : α → α → α) : rows combine [] = [] := by rw [rows]

theorem rows_of_ne_nil (combine : α → α → α) {leaves : List α} (h : leaves ≠ []) :
    rows combine leaves = leaves.toArray :: rows combine (pairUp combine leaves) := by
  obtain ⟨leaf, more, rfl⟩ := List.exists_cons_of_ne_nil h
  rw [rows]

theorem neighbours_concat_even {row : List α} (h : row.length % 2 = 0) (last : α) :
    neighbours (row ++ [last]) = neighbours row := by
  induction row using neighbours.induct with
  | case1 => rfl
  | case2 a => simp at h
  | case3 a b rest ih =>
    simp only [List.length_cons] at h
    simp only [List.cons_append, neighbours]
    rw [ih (by omega)]

theorem neighbours_concat_odd {row : List α} (h : row.length % 2 = 0) (left right : α) :
    neighbours (row ++ [left, right]) = neighbours row ++ [(left, right)] := by
  induction row using neighbours.induct with
  | case1 => rfl
  | case2 a => simp at h
  | case3 a b rest ih =>
    simp only [List.length_cons] at h
    simp only [List.cons_append, neighbours]
    rw [ih (by omega)]

/-- **Pushing a leaf gives the tower over the longer list.** -/
theorem push_rows (combine : α → α → α) (leaves : List α) (leaf : α) :
    push combine (rows combine leaves) leaf = rows combine (leaves ++ [leaf]) := by
  induction hn : leaves.length using Nat.strongRecOn generalizing leaves leaf with
  | ind n ih =>
    subst hn
    have hne : leaves ++ [leaf] ≠ [] := by simp
    rw [rows_of_ne_nil combine hne]
    rcases List.eq_nil_or_concat' leaves with rfl | ⟨before, left, rfl⟩
    · rw [rows_nil, push, List.nil_append]
      simp [pairUp, neighbours, rows_nil]
    · rw [rows_of_ne_nil combine (by simp), push, List.size_toArray, List.push_toArray]
      by_cases heven : (before ++ [left]).length % 2 = 0
      · rw [if_pos heven, pairUp, pairUp, neighbours_concat_even heven]
      · -- the row gets an even length, so its last two nodes are carried
        have hbefore : before.length % 2 = 0 := by
          rw [List.length_append, List.length_singleton] at heven
          omega
        have hpairs : pairUp combine (before ++ [left] ++ [leaf]) =
            pairUp combine (before ++ [left]) ++ [combine left leaf] := by
          rw [List.append_assoc, List.singleton_append, pairUp, neighbours_concat_odd hbefore,
            List.map_append, ← neighbours_concat_even hbefore left]
          rfl
        have hback : (before ++ [left]).toArray.back?.getD leaf = left := by simp
        have hshort : (pairUp combine (before ++ [left])).length < (before ++ [left]).length := by
          rw [length_pairUp, List.length_append, List.length_singleton]
          omega
        rw [if_neg heven, hpairs]
        simp only [hback]
        rw [ih _ hshort _ _ rfl]

/-! ## Complete blocks -/

/-- The node over the first `blockSize level` leaves, if there are so many. -/
def block? (combine : α → α → α) : (level : Nat) → (leaves : List α) → Option α
  | 0, leaves => leaves.head?
  | level + 1, leaves =>
    match block? combine level leaves, block? combine level (leaves.drop (blockSize level)) with
    | some left, some right => some (combine left right)
    | _, _ => none

section

variable {combine : α → α → α}

theorem block?_succ_eq_some {level : Nat} {leaves : List α} {node : α} :
    block? combine (level + 1) leaves = some node ↔
      ∃ left right, block? combine level leaves = some left ∧
        block? combine level (leaves.drop (blockSize level)) = some right ∧
        node = combine left right := by
  rw [block?]
  cases block? combine level leaves with
  | none => simp
  | some left =>
    cases block? combine level (leaves.drop (blockSize level)) with
    | none => simp
    | some right => simp [eq_comm]

/-- A block is complete when there are enough leaves. -/
theorem isSome_block? {level : Nat} {leaves : List α} :
    (block? combine level leaves).isSome ↔ blockSize level ≤ leaves.length := by
  induction level generalizing leaves with
  | zero => rw [block?, List.isSome_head?, blockSize_zero, Nat.succ_le_iff, List.length_pos_iff]
  | succ level ih =>
    have hpos := blockSize_pos level
    rw [blockSize_succ, Option.isSome_iff_exists]
    constructor
    · rintro ⟨node, hnode⟩
      obtain ⟨left, right, -, hright, -⟩ := block?_succ_eq_some.1 hnode
      have hlen := ih.1 (Option.isSome_of_eq_some hright)
      rw [List.length_drop] at hlen
      omega
    · intro hlen
      have hdrop : blockSize level ≤ (leaves.drop (blockSize level)).length := by
        rw [List.length_drop]
        omega
      obtain ⟨left, hleft⟩ := Option.isSome_iff_exists.1 (ih.2 (by omega : _ ≤ leaves.length))
      obtain ⟨right, hright⟩ := Option.isSome_iff_exists.1 (ih.2 hdrop)
      exact ⟨_, block?_succ_eq_some.2 ⟨left, right, hleft, hright, rfl⟩⟩

theorem neighbours_drop (row : List α) (index : Nat) :
    neighbours (row.drop (2 * index)) = (neighbours row).drop index := by
  induction index generalizing row with
  | zero => rfl
  | succ index ih =>
    match row with
    | [] => simp [neighbours]
    | [_] => simp [neighbours, Nat.mul_succ]
    | a :: b :: rest =>
      rw [neighbours, Nat.mul_succ, List.drop_succ_cons, List.drop_succ_cons, List.drop_succ_cons]
      exact ih rest

theorem pairUp_drop (row : List α) (index : Nat) :
    pairUp combine (row.drop (2 * index)) = (pairUp combine row).drop index := by
  rw [pairUp, neighbours_drop, pairUp, List.map_drop]

/-- A block is a block, one level lower, of the row above the leaves. -/
theorem block?_pairUp (level : Nat) (leaves : List α) :
    block? combine level (pairUp combine leaves) = block? combine (level + 1) leaves := by
  induction level generalizing leaves with
  | zero =>
    match leaves with
    | [] => rfl
    | [_] => rfl
    | _ :: _ :: _ => rfl
  | succ level ih =>
    rw [block?, ← pairUp_drop, ih, ih, ← blockSize_succ]
    rfl

theorem block?_pairUp_drop (level start : Nat) (leaves : List α) :
    block? combine level ((pairUp combine leaves).drop start) =
      block? combine (level + 1) (leaves.drop (2 * start)) := by
  rw [← pairUp_drop, block?_pairUp]

/-- A row above the leaves is a row of the tower over the paired leaves. -/
theorem node?_rows_succ (leaves : List α) (level index : Nat) :
    (rows combine leaves).node? (level + 1) index =
      (rows combine (pairUp combine leaves)).node? level index := by
  by_cases hnil : leaves = []
  · subst hnil
    simp [pairUp, neighbours, rows_nil, node?]
  · simp [rows_of_ne_nil combine hnil, node?]

/-- **A look-up finds the block it asks for.** -/
theorem node?_rows (leaves : List α) (level index : Nat) :
    (rows combine leaves).node? level index =
      block? combine level (leaves.drop (index * blockSize level)) := by
  induction level generalizing leaves with
  | zero =>
    rw [block?, blockSize_zero, Nat.mul_one, List.head?_drop]
    by_cases hnil : leaves = []
    · subst hnil
      simp [rows_nil, node?]
    · simp [rows_of_ne_nil combine hnil, node?]
  | succ level ih =>
    have hstart : index * blockSize (level + 1) = 2 * (index * blockSize level) := by
      rw [blockSize_succ]
      ring
    rw [node?_rows_succ, ih, block?_pairUp_drop, hstart]

/-! ## Combined pairs -/

/-- The pairs of nodes that were combined, row by row. -/
def joins (tower : Tower α) : List (α × α) := tower.flatMap fun row => neighbours row.toList

theorem joins_rows (leaves : List α) :
    joins (rows combine leaves) = neighbours leaves ++ joins (rows combine (pairUp combine leaves)) := by
  by_cases hnil : leaves = []
  · subst hnil
    rfl
  · rw [rows_of_ne_nil combine hnil, joins, List.flatMap_cons]
    rfl

/-- The halves of every complete block were combined. -/
theorem mem_joins_rows (level index : Nat) {leaves : List α} {left right : α}
    (hleft : block? combine level (leaves.drop (index * blockSize (level + 1))) = some left)
    (hright : block? combine level
      (leaves.drop (index * blockSize (level + 1) + blockSize level)) = some right) :
    (left, right) ∈ joins (rows combine leaves) := by
  rw [joins_rows, List.mem_append]
  induction level generalizing leaves with
  | zero =>
    left
    rw [blockSize_succ, blockSize_zero, Nat.mul_one, Nat.mul_comm] at hleft hright
    rw [block?, List.head?_drop] at hleft hright
    obtain ⟨hl, hleft⟩ := List.getElem?_eq_some_iff.1 hleft
    obtain ⟨hr, hright⟩ := List.getElem?_eq_some_iff.1 hright
    have hmem : (left, right) ∈ (neighbours leaves).drop index := by
      rw [← neighbours_drop, List.drop_eq_getElem_cons hl, List.drop_eq_getElem_cons hr, hleft, hright,
        neighbours]
      exact List.mem_cons_self
    exact List.mem_of_mem_drop hmem
  | succ level ih =>
    right
    rw [joins_rows, List.mem_append]
    have hstart : index * blockSize (level + 2) = 2 * (index * blockSize (level + 1)) := by
      rw [blockSize_succ (level + 1)]
      ring
    have hmiddle : index * blockSize (level + 2) + blockSize (level + 1) =
        2 * (index * blockSize (level + 1) + blockSize level) := by
      rw [hstart, blockSize_succ level]
      ring
    rw [hstart, ← block?_pairUp_drop] at hleft
    rw [hmiddle, ← block?_pairUp_drop] at hright
    exact ih hleft hright

end

/-! ## Lists of leaves -/

/-- Lists that start alike are prefixes of one another when what follows is. -/
theorem prefix_of_take_of_drop {leaves leaves' : List α} (n : Nat)
    (htake : leaves.take n = leaves'.take n) (hdrop : leaves.drop n <+: leaves'.drop n) :
    leaves <+: leaves' := by
  obtain ⟨rest, hrest⟩ := hdrop
  refine ⟨rest, ?_⟩
  calc leaves ++ rest = leaves.take n ++ (leaves.drop n ++ rest) := by
        rw [← List.append_assoc, List.take_append_drop]
    _ = leaves'.take n ++ leaves'.drop n := by rw [htake, hrest]
    _ = leaves' := List.take_append_drop n leaves'

end Tower

end KeyTransparency
