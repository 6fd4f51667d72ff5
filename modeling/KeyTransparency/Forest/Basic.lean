import KeyTransparency.Error
import KeyTransparency.Tower

/-!
A record of all settled snapshots of a partition, one leaf each.

A forest over `n` leaves has one perfect tree for every set bit of `n`, the largest first.  Each node
names the newest leaf below it, so that a root by itself tells which snapshot it stands for.
-/

namespace KeyTransparency

structure ForestNode where
  hash : Hash
  /-- The base-trie root of the last leaf below this node. -/
  newestLeaf : Hash
  /-- The verification epoch of that leaf. -/
  period : UInt64
deriving DecidableEq

namespace ForestNode

def leafPreimage (trieRoot : Hash) (period : UInt64) : Bytes :=
  Hash.preimage .forestNode [trieRoot.bytes, Bytes.bigEndian64 period]

def leaf (trieRoot : Hash) (period : UInt64) : ForestNode :=
  ⟨Hash.digest (leafPreimage trieRoot period), trieRoot, period⟩

def combinePreimage (left right : ForestNode) : Bytes :=
  Hash.preimage .forestNode
    [left.hash.bytes, right.hash.bytes, right.newestLeaf.bytes, Bytes.bigEndian64 right.period]

def combine (left right : ForestNode) : ForestNode :=
  ⟨Hash.digest (combinePreimage left right), right.newestLeaf, right.period⟩

end ForestNode

/-- What a verifier knows of a forest. -/
structure ForestDigest where
  roots : List ForestNode
  size : Nat
deriving DecidableEq

/-- Where the root of a tree stands: its level and its first leaf. -/
structure RootPosition where
  level : Nat
  start : Nat
deriving DecidableEq

namespace Forest

/-- The trees for the bits of `size` below `level`, given that the trees before them end at leaf
`start`. -/
def positionsBelow (size : Nat) : (level : Nat) → (start : Nat) → List RootPosition
  | 0, _ => []
  | level + 1, start =>
    if size.testBit level then ⟨level, start⟩ :: positionsBelow size level (start + Tower.blockSize level)
    else positionsBelow size level start

def rootPositions (size : Nat) : List RootPosition := positionsBelow size (Nat.log2 size + 1) 0

/-- The number of equal entries at the start of two lists. -/
def agreement {α : Type} [DecidableEq α] : List α → List α → Nat
  | a :: as, b :: bs => if a = b then agreement as bs + 1 else 0
  | _, _ => 0

/-- The number of leading roots that stay roots when the forest grows. -/
def keptRoots (oldSize newSize : Nat) : Nat := agreement (rootPositions oldSize) (rootPositions newSize)

end Forest

structure HistoryForest where
  levels : Tower ForestNode
  /-- The forest holds at most `2^depth` leaves, see `capacity`. -/
  depth : Nat
deriving DecidableEq

namespace HistoryForest

open Forest

def empty (depth : Nat) : HistoryForest := ⟨[], depth⟩

instance : Inhabited HistoryForest := ⟨empty 0⟩

/-- How many leaves a forest of that depth holds: one, shifted in a 64-bit word.  The shift takes the
depth modulo 64. -/
def capacityOf (depth : Nat) : Nat := ((1 : UInt64) <<< UInt64.ofNat depth).toNat

def capacity (forest : HistoryForest) : Nat := capacityOf forest.depth

/-- The shift of `capacity` is out of range: a build that checks its shifts stops there, while others
go on with the depth modulo 64. -/
def overflows (forest : HistoryForest) : Bool := 64 ≤ forest.depth

def size (forest : HistoryForest) : Nat := forest.levels.size

def isFull (forest : HistoryForest) : Bool := forest.capacity ≤ forest.size

/-- Commits to the base-trie root of one settled period. -/
def append (forest : HistoryForest) (trieRoot : Hash) (period : UInt64) :
    Except Error HistoryForest :=
  if forest.isFull then .error (.historyFull forest.capacity)
  else
    .ok { forest with levels := forest.levels.push ForestNode.combine (ForestNode.leaf trieRoot period) }

/-- The roots when the forest held `size` leaves. -/
def roots (forest : HistoryForest) (size : Nat) : List ForestNode :=
  (rootPositions size).filterMap fun p => forest.levels.node? p.level (p.start / Tower.blockSize p.level)

def digest (forest : HistoryForest) : ForestDigest := ⟨forest.roots forest.size, forest.size⟩

def digestAt (forest : HistoryForest) (size : Nat) : Except Error ForestDigest :=
  if forest.size < size then .error (.invalidRange size forest.size)
  else .ok ⟨forest.roots size, size⟩

end HistoryForest

end KeyTransparency
