import KeyTransparency.Trie.Walk

/-!
A trie whose past epochs stay readable.

All versions of all nodes lie in one arena and name each other by index.  Every epoch has a root.  A
node made in an earlier epoch keeps its label, content and hash for good: to write to it, it is
copied into the current epoch, and the two versions name each other as `prev` and `next`.

An index fits 32 bits in an arena of fewer than `2^32` node versions.  Indices are plain numbers here,
and what is said of these tries is said of such arenas.
-/

namespace KeyTransparency

open Trie

/-- The index of a node version in the arena, below `2^32`. -/
abbrev NodeId := Nat

inductive VersionedContent
  | branch (left right : Option NodeId)
  | leaf (values : List ValueEntry)
deriving DecidableEq

structure VersionedNode where
  label : Bits
  content : VersionedContent
  hash : Hash
  /-- The epoch this version was made in. -/
  epoch : Nat
  prev : Option NodeId
  next : Option NodeId
  /-- The parent when this version was made or last written. -/
  parent : Option NodeId
deriving DecidableEq

def VersionedNode.child (node : VersionedNode) (side : UInt8) : Option NodeId :=
  match node.content with
  | .branch left right => if side = 0 then left else right
  | .leaf _ => none

structure PersistentTrie where
  nodes : Array VersionedNode
  /-- The roots of the completed epochs. -/
  roots : Array NodeId
  /-- The numbers of keys of the completed epochs. -/
  sizes : Array Nat
  currentRoot : NodeId
  epoch : Nat
  size : Nat
  keyLength : Option Nat
deriving DecidableEq

namespace PersistentTrie

def empty (keyLength : Option Nat) : PersistentTrie :=
  { nodes := #[⟨[], .branch none none, internalHash [] none none, 0, none, none, none⟩]
    roots := #[], sizes := #[], currentRoot := 0, epoch := 0, size := 0, keyLength }

instance : Inhabited PersistentTrie := ⟨empty none⟩

/-- Closes the current epoch. -/
def nextEpoch (trie : PersistentTrie) : PersistentTrie :=
  { trie with
    roots := trie.roots.push trie.currentRoot
    sizes := trie.sizes.push trie.size
    epoch := trie.epoch + 1 }

def rootAt (trie : PersistentTrie) (epoch : Nat) : Except Error NodeId :=
  if trie.epoch < epoch then .error (.epochNotYetOccurred epoch trie.epoch)
  else if epoch = trie.epoch then .ok trie.currentRoot
  else
    match trie.roots[epoch]? with
    | some root => .ok root
    | none => .error (.malformed (.missingRoot epoch))

/-- The number of distinct keys at the end of `epoch`. -/
def sizeAt (trie : PersistentTrie) (epoch : Nat) : Except Error Nat :=
  if trie.epoch < epoch then .error (.epochNotYetOccurred epoch trie.epoch)
  else if epoch = trie.epoch then .ok trie.size
  else
    match trie.sizes[epoch]? with
    | some size => .ok size
    | none => .error (.malformed (.missingRoot epoch))

def rootHash (trie : PersistentTrie) (epoch : Nat) : Except Error Hash := do
  let root ← trie.rootAt epoch
  match trie.nodes[root]? with
  | some node => .ok node.hash
  | none => .error (.malformed (.danglingNode root))

def checkKey (trie : PersistentTrie) (key : Bits) : Except Error Unit :=
  match trie.keyLength with
  | some expected =>
    if expected ≠ key.length then .error (.keyLength expected key.length)
    else if key = [] then .error (.keyLength 1 0)
    else .ok ()
  | none => if key = [] then .error (.keyLength 1 0) else .ok ()

/-! ## Writing -/

/-- A change of the arena; what was done before a fault stays done. -/
abbrev Edit := ExceptT StructureFault (StateM (Array VersionedNode))

namespace Edit

def read (id : NodeId) : Edit VersionedNode := do
  match (← get)[id]? with
  | some node => pure node
  | none => throw (.danglingNode id)

def push (node : VersionedNode) : Edit NodeId := do
  let id := (← get).size
  modify (·.push node)
  pure id

def update (id : NodeId) (change : VersionedNode → VersionedNode) : Edit Unit :=
  modify (·.modify id change)

/-- A version of `id` that may be written in the epoch `now`. -/
def writable (now : Nat) (id : NodeId) (parent : Option NodeId) : Edit NodeId := do
  let node ← read id
  if now < node.epoch then throw (.nodeFromLaterEpoch node.epoch now)
  else if node.epoch = now then
    match parent with
    | none => pure id
    | some _ =>
      update id ({ · with parent })
      pure id
  else if node.next.isSome then throw .supersededNode
  else
    let copy ← push { node with epoch := now, prev := some id, next := none, parent }
    update id ({ · with next := some copy })
    pure copy

def setChild (parent : NodeId) (side : UInt8) (child : NodeId) : Edit Unit := do
  match (← read parent).content with
  | .leaf _ => throw .leafAsParent
  | .branch left right =>
    let content :=
      if side = 0 then VersionedContent.branch (some child) right
      else VersionedContent.branch left (some child)
    update parent ({ · with content })

def childHash : Option NodeId → Edit (Option Hash)
  | none => pure none
  | some id => do pure (some (← read id).hash)

def rehash (now : Nat) (id : NodeId) : Edit Unit := do
  let node ← read id
  if node.epoch ≠ now then throw (.rehashOfPastEpoch node.epoch)
  else
    match node.content with
    | .leaf values =>
      update id ({ · with hash := leafHash node.label values })
    | .branch left right =>
      let left ← childHash left
      let right ← childHash right
      update id ({ · with hash := internalHash node.label left right })

def newLeaf (now : Nat) (label : Bits) (entry : ValueEntry) (parent : NodeId) : Edit NodeId :=
  push ⟨label, .leaf [entry], leafHash label [entry], now, none, none, some parent⟩

/-- Parts `child` of `parent`, whose label the key leaves after `shared` bits.  The upper half is new;
the lower half is a version of the child. -/
def splitChild (now : Nat) (entry : ValueEntry) (parent child : NodeId) (side : UInt8)
    (label : Bits) (shared : Nat) (below : Bits) : Edit Unit := do
  let upper ← push
    ⟨label.take shared, .branch none none, Hash.zero, now, none, none, some parent⟩
  let lower ← writable now child (some upper)
  let lowerLabel := label.drop shared
  let lowerSide := lowerLabel.headD 0
  update lower ({ · with label := lowerLabel })
  rehash now lower
  let leaf ← newLeaf now below entry upper
  setChild upper lowerSide lower
  setChild upper (1 - lowerSide) leaf
  rehash now upper
  setChild parent side upper

/-- Inserts below the writable branch `parent`, whose label ends at bit `depth` of the key, and
answers whether the key is new.  `fuel` bounds the number of nodes on the way down. -/
def insertBelow (now : Nat) (key : Bits) (entry : ValueEntry) :
    (fuel : Nat) → (parent : NodeId) → (depth : Nat) → Edit Bool
  | 0, _, _ => throw .endlessDescent
  | fuel + 1, parent, depth => do
    match key.drop depth with
    | [] => throw .keyEndsAtInternalNode
    | side :: more =>
      match (← read parent).child side with
      | none =>
        let leaf ← newLeaf now (side :: more) entry parent
        setChild parent side leaf
        rehash now parent
        pure true
      | some child =>
        let label := (← read child).label
        let shared := Bits.commonPrefix (side :: more) label
        if shared < label.length then
          match (side :: more).drop shared with
          | [] => throw .keyEndsInLabel
          | below =>
            splitChild now entry parent child side label shared below
            rehash now parent
            pure true
        else
          let child ← writable now child (some parent)
          setChild parent side child
          let next := depth + label.length
          match (← read child).content with
          | .leaf values =>
            if next = key.length then
              update child ({ · with content := .leaf (values ++ [entry]) })
              rehash now child
              rehash now parent
              pure false
            else throw .keyPassesLeaf
          | .branch .. =>
            let added ← insertBelow now key entry fuel child next
            rehash now parent
            pure added

end Edit

/-- Adds `entry` under `key` in the current epoch.  After a fault the versions made so far stay in
the arena. -/
def insert (trie : PersistentTrie) (key : Bits) (entry : ValueEntry) :
    PersistentTrie × Except Error Unit :=
  match trie.checkKey key with
  | .error e => (trie, .error e)
  | .ok () =>
    let keyLength := some (trie.keyLength.getD key.length)
    let fuel := (trie.nodes.size + 1) * (key.length + 1)
    match (Edit.writable trie.epoch trie.currentRoot none).run.run trie.nodes with
    | (.error fault, nodes) => ({ trie with nodes, keyLength }, .error (.malformed fault))
    | (.ok root, nodes) =>
      match (Edit.insertBelow trie.epoch key entry fuel root 0).run.run nodes with
      | (.error fault, nodes) =>
        ({ trie with nodes, keyLength, currentRoot := root }, .error (.malformed fault))
      | (.ok isNew, nodes) =>
        let size := if isNew then trie.size + 1 else trie.size
        ({ trie with nodes, keyLength, currentRoot := root, size }, .ok ())

/-! ## Reading -/

/-- A node as it may be read in the epoch `reading`: a later one is a fault. -/
def expose (trie : PersistentTrie) (reading : Nat) (id : NodeId) :
    Except StructureFault VersionedNode :=
  match trie.nodes[id]? with
  | none => .error (.danglingNode id)
  | some node =>
    if reading < node.epoch then .error (.nodeNewerThanReading node.epoch reading) else .ok node

def hashOf? (trie : PersistentTrie) (id : Option NodeId) : Option Hash :=
  id.bind fun id => trie.nodes[id]?.map VersionedNode.hash

/-- Follows `key` from `node`, whose label ends at bit `depth` of it; `path` lists the nodes passed,
the last one first.  `fuel` bounds the number of nodes on the way down. -/
def follow (trie : PersistentTrie) (reading : Nat) (key : Bits) :
    (fuel : Nat) → (node : VersionedNode) → (depth : Nat) → List CopathEntry → List NodeId →
    Except StructureFault (Walk × List NodeId)
  | 0, _, _, _, _ => .error .endlessDescent
  | fuel + 1, node, depth, above, path =>
    match node.content with
    | .leaf values =>
      if depth = key.length then .ok (⟨above, .found node.label values⟩, path)
      else .error (.leafBeforeKeyEnd depth key.length)
    | .branch left right =>
      match key.drop depth with
      | [] => .error .keyEndsAtBranch
      | side :: more =>
        let (taken, other) := if side = 0 then (left, right) else (right, left)
        let above := ⟨node.label, trie.hashOf? other⟩ :: above
        match taken with
        | none => .ok (⟨above, .vacant side⟩, path)
        | some id => do
          let child ← trie.expose reading id
          if child.label.isPrefixOf (side :: more) then
            trie.follow reading key fuel child (depth + child.label.length) above (id :: path)
          else .ok (⟨above, .diverged child.label child.hash⟩, id :: path)

/-- The walk from the root of `epoch`, with the nodes passed, root first. -/
def walk (trie : PersistentTrie) (key : Bits) (epoch : Nat) : Except Error (Walk × List NodeId) := do
  trie.checkKey key
  let root ← trie.rootAt epoch
  let fuel := (trie.nodes.size + 1) * (key.length + 1)
  let found := do
    let node ← trie.expose epoch root
    trie.follow epoch key fuel node node.label.length [] [root]
  let (walk, path) ← found.mapError Error.malformed
  pure (walk, path.reverse)

/-- The values under `key` at the end of `epoch`, oldest first. -/
def lookup (trie : PersistentTrie) (key : Bits) (epoch : Nat) :
    Except Error (Option (List ValueEntry)) :=
  (trie.walk key epoch).map fun (walk, _) => walk.values?

/-- The versions passed on the way to the key's leaf, root first. -/
def lookupPath (trie : PersistentTrie) (key : Bits) (epoch : Nat) : Except Error (List NodeId) := do
  let (walk, path) ← trie.walk key epoch
  match walk.values? with
  | some _ => .ok path
  | none => .error (.keyNotFound key.display)

def prove (trie : PersistentTrie) (key : Bits) (epoch : Nat) : Except Error LookupProof := do
  let (walk, _) ← trie.walk key epoch
  walk.toProof.mapError .malformed

/-! ## Versions of one node -/

def prevOf (trie : PersistentTrie) (id : NodeId) : Option NodeId :=
  trie.nodes[id]?.bind VersionedNode.prev

def nextOf (trie : PersistentTrie) (id : NodeId) : Option NodeId :=
  trie.nodes[id]?.bind VersionedNode.next

def oldestFrom (trie : PersistentTrie) : (fuel : Nat) → NodeId → NodeId
  | 0, id => id
  | fuel + 1, id =>
    match trie.prevOf id with
    | none => id
    | some prev => trie.oldestFrom fuel prev

def versionsFrom (trie : PersistentTrie) : (fuel : Nat) → NodeId → List NodeId
  | 0, id => [id]
  | fuel + 1, id =>
    match trie.nextOf id with
    | none => [id]
    | some next => id :: trie.versionsFrom fuel next

/-- All versions of a node, oldest first. -/
def versionChain (trie : PersistentTrie) (id : NodeId) : List NodeId :=
  trie.versionsFrom trie.nodes.size (trie.oldestFrom trie.nodes.size id)

end PersistentTrie

end KeyTransparency
