/-!
Perfect binary trees over a growing sequence of leaves, row by row.

Row `k` of a tower holds, for every complete block of `2^k` consecutive leaves, the block's node; row
0 holds the leaves.  A new leaf is put at the end of row 0, and wherever it makes the length of a row
even, the last two nodes of the row are combined and carried into the row above.
-/

namespace KeyTransparency

abbrev Tower (α : Type) := List (Array α)

namespace Tower

variable {α : Type}

/-- Puts a node at the end of the lowest row and carries. -/
def push (combine : α → α → α) : Tower α → α → Tower α
  | [], node => [#[node]]
  | row :: above, node =>
    if row.size % 2 = 0 then row.push node :: above
    else
      let left := row.back?.getD node
      row.push node :: push combine above (combine left node)

/-- The number of leaves below a node of row `level`. -/
def blockSize (level : Nat) : Nat := Nat.pow 2 level

/-- The number of leaves. -/
def size (tower : Tower α) : Nat := (tower.headD #[]).size

/-- The node over block `index` of the row: `blockSize level` leaves, after as many for every block
before. -/
def node? (tower : Tower α) (level index : Nat) : Option α := (tower[level]?.getD #[])[index]?

end Tower

end KeyTransparency
