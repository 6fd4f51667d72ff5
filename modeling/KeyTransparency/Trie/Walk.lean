import KeyTransparency.Trie.Subtree

/-!
Following a key down a trie.

A walk ends at the key's leaf, at the vacant side of a branch, or at a node whose label the key does
not follow.  It keeps the branches it passed in the form a proof wants them, so that looking a key
up and proving the answer are two readings of one walk.
-/

namespace KeyTransparency.Trie

inductive Ending
  | found (label : Bits) (values : List ValueEntry)
  | vacant (side : UInt8)
  | diverged (label : Bits) (hash : Hash)
deriving DecidableEq

structure Walk where
  /-- The branches passed, the last one first. -/
  copath : List CopathEntry
  ending : Ending
deriving DecidableEq

namespace Walk

def values? (walk : Walk) : Option (List ValueEntry) :=
  match walk.ending with
  | .found _ values => some values
  | _ => none

def toProof (walk : Walk) : Except StructureFault LookupProof :=
  match walk.ending with
  | .found label values => .ok (.member ⟨label, walk.copath⟩ values)
  | .diverged label hash => .ok (.nonMember ⟨some hash, label, walk.copath⟩)
  | .vacant side =>
    if walk.copath.length = 1 then .ok (.nonMember ⟨none, Bits.ofFlags [side], walk.copath⟩)
    else .error .emptyChildBelowRoot

end Walk

namespace Subtree

/-- Goes on into a child, unless there is none or the key leaves its label. -/
def arrive (child : Subtree) (rest : Bits) (side : UInt8) (above : List CopathEntry)
    (onward : Unit → Except StructureFault Walk) : Except StructureFault Walk :=
  match child with
  | vacant => .ok ⟨above, .vacant side⟩
  | leaf label _ hash => if label.isPrefixOf rest then onward () else .ok ⟨above, .diverged label hash⟩
  | branch label _ _ hash =>
    if label.isPrefixOf rest then onward () else .ok ⟨above, .diverged label hash⟩

/-- Follows `key` from a node whose label ends at bit `depth` of it. -/
def follow (key : Bits) : Subtree → (depth : Nat) → List CopathEntry → Except StructureFault Walk
  | vacant, depth, _ => .error (.leafBeforeKeyEnd depth key.length)
  | leaf label values _, depth, above =>
    if depth = key.length then .ok ⟨above, .found label values⟩
    else .error (.leafBeforeKeyEnd depth key.length)
  | branch label left right _, depth, above =>
    match key.drop depth with
    | [] => .error .keyEndsAtBranch
    | side :: more =>
      if side = 0 then
        let above := ⟨label, right.hash?⟩ :: above
        left.arrive (side :: more) side above fun _ =>
          left.follow key (depth + left.label.length) above
      else
        let above := ⟨label, left.hash?⟩ :: above
        right.arrive (side :: more) side above fun _ =>
          right.follow key (depth + right.label.length) above

/-- The walk from the root, whose own label the key need not spell. -/
def walk (root : Subtree) (key : Bits) : Except StructureFault Walk :=
  root.follow key root.label.length []

end Subtree

end KeyTransparency.Trie
