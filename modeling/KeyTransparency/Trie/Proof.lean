import KeyTransparency.Error
import KeyTransparency.Value

/-!
Proofs that a key is or is not in a trie with a given root hash.

A proof lists the branches above the place where the key ends, from the bottom up to the root, each
with its label and the hash of the child that the key does not follow.  Checking it folds the list
into a root hash.  Membership also asks that the labels spell out the key; non-membership that the
key leaves the trie at the frontier, which is either a node whose label the key does not follow or
the empty side of the root.
-/

namespace KeyTransparency

namespace Trie

/-! ## Node hashes -/

def encodeValues (values : List ValueEntry) : Bytes :=
  values.flatMap fun v => v.hash.bytes ++ Bytes.bigEndian64 v.position

def leafPreimage (label : Bits) (values : List ValueEntry) : Bytes :=
  Hash.preimage .trieLeaf [label, encodeValues values]

/-- An absent child is written as no bytes, a present one as its 32. -/
def childBytes (child : Option Hash) : Bytes := (child.map Hash.bytes).getD []

def internalPreimage (label : Bits) (left right : Option Hash) : Bytes :=
  Hash.preimage .trieInternal [label, childBytes left, childBytes right]

def leafHash (label : Bits) (values : List ValueEntry) : Hash :=
  Hash.digest (leafPreimage label values)

def internalHash (label : Bits) (left right : Option Hash) : Hash :=
  Hash.digest (internalPreimage label left right)

end Trie

/-! ## Proofs -/

/-- A branch above the end of the key: its label, and the child on the other side. -/
structure CopathEntry where
  label : Bits
  sibling : Option Hash
deriving DecidableEq

structure MembershipProof where
  leafLabel : Bits
  copath : List CopathEntry
deriving DecidableEq

structure NonMembershipProof where
  /-- The node the key runs into, or `none` for an empty side of the root. -/
  frontierHash : Option Hash
  frontierLabel : Bits
  copath : List CopathEntry
deriving DecidableEq

inductive LookupProof
  | member (proof : MembershipProof) (values : List ValueEntry)
  | nonMember (proof : NonMembershipProof)
deriving DecidableEq

/-- The labels above the end of the key, root first. -/
def Trie.pathPrefix (copath : List CopathEntry) : Bits :=
  (copath.reverse.map CopathEntry.label).flatten

/-- The hash of a branch from the child followed and the entry about it. -/
def CopathEntry.join (entry : CopathEntry) (child : Option Hash) (fromLeft : Bool) : Hash :=
  if fromLeft then Trie.internalHash entry.label child entry.sibling
  else Trie.internalHash entry.label entry.sibling child

/-- The root hash above `child`.  The root is unlabelled; every branch below it has a label and two
children. -/
def Trie.foldCopath (child : Option Hash) (fromLeft : Bool) : List CopathEntry → Option Hash
  | [] => none
  | [root] => if root.label = [] then some (root.join child fromLeft) else none
  | entry :: above =>
    match entry.label, entry.sibling with
    | side :: _, some _ => foldCopath (some (entry.join child fromLeft)) (side == 0) above
    | _, _ => none

def MembershipProof.computeRoot (proof : MembershipProof) (key : Bits) (values : List ValueEntry) :
    Option Hash :=
  match proof.leafLabel with
  | [] => none
  | side :: _ =>
    if Trie.pathPrefix proof.copath ++ proof.leafLabel = key then
      Trie.foldCopath (some (Trie.leafHash proof.leafLabel values)) (side == 0) proof.copath
    else none

def MembershipProof.verify (proof : MembershipProof) (key : Bits) (values : List ValueEntry)
    (root : Hash) : Except Error Unit :=
  match proof.computeRoot key values with
  | none => .error (.proofInvalid .trie .pathNotKey)
  | some computed =>
    if computed = root then .ok ()
    else .error (.proofInvalid .trie (.membershipRoot root computed))

/-- Whether `rest` of the key cannot go on at the frontier: a node that it follows to the end of its
label could still hold the key below it, and only the root may have an empty side. -/
def NonMembershipProof.diverges (proof : NonMembershipProof) (rest : Bits) : Bool :=
  match proof.frontierHash with
  | none => proof.copath.length == 1 && proof.frontierLabel.length == 1
  | some _ => !proof.frontierLabel.isPrefixOf rest

def NonMembershipProof.computeRoot (proof : NonMembershipProof) (key : Bits) : Option Hash :=
  let above := Trie.pathPrefix proof.copath
  match proof.frontierLabel with
  | [] => none
  | side :: _ =>
    let rest := key.drop above.length
    if above <+: key ∧ rest.head? = some side ∧ proof.diverges rest then
      Trie.foldCopath proof.frontierHash (side == 0) proof.copath
    else none

def NonMembershipProof.verify (proof : NonMembershipProof) (key : Bits) (root : Hash) :
    Except Error Unit :=
  match proof.computeRoot key with
  | none => .error (.proofInvalid .trie .frontierNotDivergent)
  | some computed =>
    if computed = root then .ok ()
    else .error (.proofInvalid .trie (.nonMembershipRoot root computed))

namespace LookupProof

def isMember : LookupProof → Bool
  | member .. => true
  | nonMember _ => false

def values : LookupProof → List ValueEntry
  | member _ values => values
  | nonMember _ => []

theorem isMember_of_mem_values {proof : LookupProof} {entry : ValueEntry}
    (h : entry ∈ proof.values) : proof.isMember = true := by
  cases proof with
  | member => rfl
  | nonMember => cases h

def computeRoot (key : Bits) : LookupProof → Option Hash
  | member proof values => proof.computeRoot key values
  | nonMember proof => proof.computeRoot key

def verify (key : Bits) (root : Hash) : LookupProof → Except Error Unit
  | member proof values => proof.verify key values root
  | nonMember proof => proof.verify key root

end LookupProof

end KeyTransparency
