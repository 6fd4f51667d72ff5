import KeyTransparency.Trie.Walk

/-!
A trie over bit-string keys of one length that can be sealed.

Each key holds the list of the values inserted under it, oldest first.  The length of the first key
fixes that of all later ones.
-/

namespace KeyTransparency

open Trie

structure PrefixTrie where
  root : Subtree
  keyLength : Option Nat
  /-- The number of distinct keys. -/
  size : Nat
  isSealed : Bool
deriving DecidableEq

namespace PrefixTrie

def empty (keyLength : Option Nat) : PrefixTrie :=
  ⟨Subtree.ofBranch [] .vacant .vacant, keyLength, 0, false⟩

instance : Inhabited PrefixTrie := ⟨empty none⟩

def rootHash (trie : PrefixTrie) : Hash := trie.root.hash?.getD Hash.zero

def toSealed (trie : PrefixTrie) : PrefixTrie := { trie with isSealed := true }

def checkKey (trie : PrefixTrie) (key : Bits) : Except Error Unit :=
  match key, trie.keyLength with
  | [], expected => .error (.keyLength (expected.getD 1) 0)
  | _ :: _, none => .ok ()
  | _ :: _, some expected =>
    if expected = key.length then .ok () else .error (.keyLength expected key.length)

/-- Puts the result of an insertion below the root in its place.  The root takes the new hash only
if the insertion went through. -/
def replaceRoot (trie : PrefixTrie) (label : Bits) (left right : Subtree) (hash : Hash)
    (added : Except StructureFault Bool) : PrefixTrie × Except Error Unit :=
  match added with
  | .error fault => ({ trie with root := .branch label left right hash }, .error (.malformed fault))
  | .ok isNew =>
    let size := if isNew then trie.size + 1 else trie.size
    ({ trie with root := .ofBranch label left right, size }, .ok ())

/-- Adds `entry` under `key`, behind what the key already holds. -/
def insert (trie : PrefixTrie) (key : Bits) (entry : ValueEntry) : PrefixTrie × Except Error Unit :=
  if trie.isSealed then (trie, .error .sealedTrie)
  else
    match trie.checkKey key with
    | .error e => (trie, .error e)
    | .ok () =>
      let trie := { trie with keyLength := some (trie.keyLength.getD key.length) }
      match trie.root with
      | .branch label left right hash =>
        if key.head? = some 0 then
          let (left, added) := left.insert entry key
          trie.replaceRoot label left right hash added
        else
          let (right, added) := right.insert entry key
          trie.replaceRoot label left right hash added
      | _ => (trie, .error (.malformed .rootIsLeaf))

/-- The values under `key`, oldest first; `none` also for keys of another length. -/
def get? (trie : PrefixTrie) (key : Bits) : Except Error (Option (List ValueEntry)) :=
  match trie.checkKey key with
  | .error _ => .ok none
  | .ok () => ((trie.root.walk key).map Walk.values?).mapError .malformed

def containsValue (trie : PrefixTrie) (key : Bits) (hash : Hash) : Except Error Bool :=
  (trie.get? key).map fun values => (values.getD []).any (·.hash = hash)

def prove (trie : PrefixTrie) (key : Bits) : Except Error LookupProof := do
  trie.checkKey key
  ((trie.root.walk key).bind Walk.toProof).mapError .malformed

end PrefixTrie

end KeyTransparency
