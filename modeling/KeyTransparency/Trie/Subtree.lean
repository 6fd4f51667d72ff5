import KeyTransparency.Trie.Proof

/-!
Binary tries with compressed paths.

A subtree is vacant, a leaf or a branch.  The label of a node is the part of its keys between its
parent and itself, first bit included.  Nodes carry their hashes.  `ofLeaf` and `ofBranch` compute
the hash; the bare constructors keep whatever hash they are given, which is how a trie read from
outside is held.
-/

namespace KeyTransparency.Trie

inductive Subtree
  | vacant
  | leaf (label : Bits) (values : List ValueEntry) (hash : Hash)
  | branch (label : Bits) (left right : Subtree) (hash : Hash)
deriving DecidableEq

namespace Subtree

def label : Subtree → Bits
  | vacant => []
  | leaf label _ _ => label
  | branch label _ _ _ => label

def hash? : Subtree → Option Hash
  | vacant => none
  | leaf _ _ hash => some hash
  | branch _ _ _ hash => some hash

def values : Subtree → List ValueEntry
  | leaf _ values _ => values
  | _ => []

def isLeaf : Subtree → Bool
  | leaf .. => true
  | _ => false

/-- The child for a bit; any bit but zero leads right. -/
def child : Subtree → UInt8 → Subtree
  | branch _ left right _, side => if side = 0 then left else right
  | _, _ => vacant

def ofLeaf (label : Bits) (values : List ValueEntry) : Subtree :=
  leaf label values (leafHash label values)

def ofBranch (label : Bits) (left right : Subtree) : Subtree :=
  branch label left right (internalHash label left.hash? right.hash?)

/-- Replaces the label and recomputes the hash. -/
def relabel (label : Bits) : Subtree → Subtree
  | vacant => vacant
  | leaf _ values _ => ofLeaf label values
  | branch _ left right _ => ofBranch label left right

def rehash (t : Subtree) : Subtree := t.relabel t.label

/-! ## Insertion -/

/-- Parts a node whose label the key leaves early: the shared part becomes a branch over the node and
a new leaf. -/
def split (t : Subtree) (rest : Bits) (entry : ValueEntry) : Subtree × Except StructureFault Bool :=
  let shared := Bits.commonPrefix rest t.label
  let upper := t.label.take shared
  let lower := t.relabel (t.label.drop shared)
  match rest.drop shared with
  | [] => (t, .error .keyEndsInLabel)
  | below =>
    let fresh := ofLeaf below [entry]
    if lower.label.head? = some 0 then (ofBranch upper lower fresh, .ok true)
    else (ofBranch upper fresh lower, .ok true)

/-- Adds `entry` below, where `rest` is what the nodes above have left of the key.  Answers whether
the key is new.  A fault leaves the entries as they were. -/
def insert (entry : ValueEntry) : Subtree → (rest : Bits) → Subtree × Except StructureFault Bool
  | vacant, rest => (ofLeaf rest [entry], .ok true)
  | leaf label values hash, rest =>
    if label.isPrefixOf rest then
      match rest.drop label.length with
      | [] => (ofLeaf label (values ++ [entry]), .ok false)
      | _ => (ofLeaf label values, .error .keyPassesLeaf)
    else split (leaf label values hash) rest entry
  | branch label left right hash, rest =>
    if label.isPrefixOf rest then
      match rest.drop label.length with
      | [] => (ofBranch label left right, .error .keyEndsAtInternalNode)
      | side :: more =>
        if side = 0 then
          let (left', added) := left.insert entry (side :: more)
          (ofBranch label left' right, added)
        else
          let (right', added) := right.insert entry (side :: more)
          (ofBranch label left right', added)
    else split (branch label left right hash) rest entry

end Subtree

end KeyTransparency.Trie
