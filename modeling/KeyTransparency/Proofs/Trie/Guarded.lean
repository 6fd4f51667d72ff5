import KeyTransparency.Trie.Persistent
import KeyTransparency.Trie.Prefix

/-!
# Tries never cut beyond a key or a label

The tries are written over what is left of a key.  Here they follow a key by the number of bits that are
behind, and cut keys and labels from one place to another; each cut and each index is guarded, and one
that is out of range leaves no answer.  Whatever the trie, under a key of bits that happens nowhere:

    Guarded.insert key entry t depth = some (t.insert entry (key.drop depth))            (insert_eq)
    Guarded.follow key t depth above = some (t.follow key depth above)                   (follow_eq)
    Guarded.insertBelow now key entry fuel parent depth
      = liftM (Edit.insertBelow now key entry fuel parent depth)                    (insertBelow_eq)
    Guarded.follow trie … = some (trie.follow …)                          (PersistentTrie.follow_eq)

Nothing is asked of labels: before every cut the operation has compared the numbers that it depends on.
-/

namespace KeyTransparency

/-! ## Guarded parts -/

namespace Bits

/-- The bits from one place to another. -/
def slice? (bits : Bits) (start stop : Nat) : Option Bits :=
  if start ≤ stop ∧ stop ≤ bits.length then some (bits.slice start stop) else none

def suffix? (bits : Bits) (start : Nat) : Option Bits := bits.slice? start bits.length

/-- How far the bits from `offset` on agree with others. -/
def commonPrefixFrom? (bits : Bits) (offset : Nat) (other : Bits) : Option Nat :=
  (bits.suffix? offset).map (commonPrefix · other)

theorem slice?_zero {bits : Bits} {stop : Nat} (h : stop ≤ bits.length) :
    bits.slice? 0 stop = some (bits.take stop) := if_pos ⟨Nat.zero_le _, h⟩

theorem suffix?_eq {bits : Bits} {start : Nat} (h : start ≤ bits.length) :
    bits.suffix? start = some (bits.drop start) := by
  rw [suffix?, slice?, if_pos ⟨h, Nat.le_refl _⟩, slice, List.take_length]

theorem commonPrefixFrom?_eq {bits other : Bits} {offset : Nat} (h : offset ≤ bits.length) :
    bits.commonPrefixFrom? offset other = some (commonPrefix (bits.drop offset) other) := by
  rw [commonPrefixFrom?, suffix?_eq h, Option.map_some]

end Bits

namespace Trie.Guarded

open Subtree

/-! ## Guarded tries -/

/-- Parts a node whose label the key leaves after `shared` bits. -/
def split (key : Bits) (entry : ValueEntry) (t : Subtree) (depth shared : Nat) :
    Option (Subtree × Except StructureFault Bool) :=
  if key.length ≤ depth + shared then some (t, .error .keyEndsInLabel)
  else do
    let upper ← t.label.slice? 0 shared
    let lower ← t.label.suffix? shared
    let below ← key.suffix? (depth + shared)
    let node := t.relabel lower
    let leaf := ofLeaf below [entry]
    if (← node.label[0]?) = 0 then some (ofBranch upper node leaf, .ok true)
    else some (ofBranch upper leaf node, .ok true)

/-- Inserts at a node whose label starts at bit `depth` of the key. -/
def insert (key : Bits) (entry : ValueEntry) :
    Subtree → (depth : Nat) → Option (Subtree × Except StructureFault Bool)
  | vacant, depth => do some (ofLeaf (← key.suffix? depth) [entry], .ok true)
  | leaf label values hash, depth => do
    let shared ← key.commonPrefixFrom? depth label
    if shared < label.length then split key entry (leaf label values hash) depth shared
    else if depth + label.length = key.length then some (ofLeaf label (values ++ [entry]), .ok false)
    else some (ofLeaf label values, .error .keyPassesLeaf)
  | branch label left right hash, depth => do
    let shared ← key.commonPrefixFrom? depth label
    let next := depth + label.length
    if shared < label.length then split key entry (branch label left right hash) depth shared
    else if next < key.length then
      if (← key[next]?) = 0 then
        let (left', added) ← insert key entry left next
        some (ofBranch label left' right, added)
      else
        let (right', added) ← insert key entry right next
        some (ofBranch label left right', added)
    else some (ofBranch label left right, .error .keyEndsAtInternalNode)

/-- Goes on into a child whose label starts at bit `depth` of the key. -/
def arrive (key : Bits) (child : Subtree) (depth : Nat) (side : UInt8) (above : List CopathEntry)
    (onward : Unit → Option (Except StructureFault Walk)) : Option (Except StructureFault Walk) :=
  match child with
  | vacant => some (.ok ⟨above, .vacant side⟩)
  | leaf label _ hash => do
    if (← key.commonPrefixFrom? depth label) < label.length then
      some (.ok ⟨above, .diverged label hash⟩)
    else onward ()
  | branch label _ _ hash => do
    if (← key.commonPrefixFrom? depth label) < label.length then
      some (.ok ⟨above, .diverged label hash⟩)
    else onward ()

/-- Follows `key` from a node whose label ends at bit `depth` of it.  The bit is the index of a child. -/
def follow (key : Bits) :
    Subtree → (depth : Nat) → List CopathEntry → Option (Except StructureFault Walk)
  | vacant, depth, _ => some (.error (.leafBeforeKeyEnd depth key.length))
  | leaf label values _, depth, above =>
    if depth = key.length then some (.ok ⟨above, .found label values⟩)
    else some (.error (.leafBeforeKeyEnd depth key.length))
  | branch label left right _, depth, above =>
    if key.length ≤ depth then some (.error .keyEndsAtBranch)
    else do
      let side ← key[depth]?
      if side = 0 then
        let above := ⟨label, right.hash?⟩ :: above
        arrive key left depth side above fun _ => follow key left (depth + left.label.length) above
      else if side = 1 then
        let above := ⟨label, left.hash?⟩ :: above
        arrive key right depth side above fun _ => follow key right (depth + right.label.length) above
      else none

def walk (root : Subtree) (key : Bits) : Option (Except StructureFault Walk) :=
  follow key root root.label.length []

section

variable {key label : Bits} {entry : ValueEntry} {t child : Subtree} {depth : Nat} {side : UInt8}
  {above : List CopathEntry}

/-- A key leaves a label if it agrees with less than all of it. -/
theorem if_leaves {α : Type} (rest label : Bits) (leaves follows : α) :
    (if Bits.commonPrefix rest label < label.length then leaves else follows) =
      if label.isPrefixOf rest then follows else leaves := by
  have hle := Bits.commonPrefix_le_right rest label
  by_cases hprefix : label.isPrefixOf rest = true
  · have hall := Bits.commonPrefix_eq_length_iff.2 (List.isPrefixOf_iff_prefix.1 hprefix)
    rw [if_pos hprefix, if_neg (by omega)]
  · have hless : Bits.commonPrefix rest label ≠ label.length := fun hall =>
      hprefix (List.isPrefixOf_iff_prefix.2 (Bits.commonPrefix_eq_length_iff.1 hall))
    rw [if_neg hprefix, if_pos (by omega)]

theorem label_relabel (ht : t ≠ vacant) (lower : Bits) : (t.relabel lower).label = lower := by
  cases t with
  | vacant => exact absurd rfl ht
  | leaf => rfl
  | branch => rfl

theorem split_eq (ht : t ≠ vacant) (hleaves : ¬ t.label.isPrefixOf (key.drop depth) = true) :
    split key entry t depth (Bits.commonPrefix (key.drop depth) t.label) =
      some (t.split (key.drop depth) entry) := by
  have hshared : Bits.commonPrefix (key.drop depth) t.label < t.label.length := by
    rw [List.isPrefixOf_iff_prefix, ← Bits.commonPrefix_eq_length_iff] at hleaves
    exact Nat.lt_of_le_of_ne (Bits.commonPrefix_le_right _ _) hleaves
  unfold split Subtree.split
  dsimp only
  generalize Bits.commonPrefix (key.drop depth) t.label = shared at hshared ⊢
  rw [List.drop_drop]
  by_cases hend : key.length ≤ depth + shared
  · rw [if_pos hend, List.drop_eq_nil_of_le hend]
  · have hbelow := List.drop_eq_getElem_cons (Nat.lt_of_not_le hend)
    rw [if_neg hend, Bits.slice?_zero (Nat.le_of_lt hshared), Bits.suffix?_eq (Nat.le_of_lt hshared),
      Bits.suffix?_eq (Nat.le_of_not_le hend), hbelow]
    have hlower : (t.label.drop shared)[0]? = some t.label[shared] := by
      rw [List.getElem?_drop, Nat.add_zero, List.getElem?_eq_getElem hshared]
    simp only [Option.bind_eq_bind, Option.bind_some, label_relabel ht, List.head?_eq_getElem?, hlower,
      Option.some.injEq]
    split <;> rfl

/-- **No insertion cuts beyond the key or a label.** -/
theorem insert_eq (hdepth : depth ≤ key.length) :
    insert key entry t depth = some (t.insert entry (key.drop depth)) := by
  induction t generalizing depth with
  | vacant =>
    rw [insert, Bits.suffix?_eq hdepth]
    rfl
  | leaf label values hash =>
    rw [insert, Subtree.insert, Bits.commonPrefixFrom?_eq hdepth, Option.bind_eq_bind, Option.bind_some,
      if_leaves]
    split
    · next hprefix =>
      have hlabel := (List.isPrefixOf_iff_prefix.1 hprefix).length_le
      rw [List.length_drop] at hlabel
      rw [List.drop_drop]
      by_cases hend : depth + label.length = key.length
      · rw [if_pos hend, List.drop_eq_nil_of_le (Nat.le_of_eq hend.symm)]
      · rw [if_neg hend, List.drop_eq_getElem_cons (by omega)]
    · next hleaves => exact split_eq nofun hleaves
  | branch label left right hash ihl ihr =>
    rw [insert, Subtree.insert, Bits.commonPrefixFrom?_eq hdepth, Option.bind_eq_bind, Option.bind_some,
      if_leaves]
    split
    · rw [List.drop_drop]
      by_cases hnext : depth + label.length < key.length
      · have hrest := List.drop_eq_getElem_cons hnext
        rw [if_pos hnext, hrest, List.getElem?_eq_getElem hnext, Option.bind_eq_bind, Option.bind_some]
        dsimp only
        split
        · rw [ihl (Nat.le_of_lt hnext), hrest]
          rfl
        · rw [ihr (Nat.le_of_lt hnext), hrest]
          rfl
      · rw [if_neg hnext, List.drop_eq_nil_of_le (Nat.le_of_not_lt hnext)]
    · next hleaves => exact split_eq nofun hleaves

theorem arrive_eq (hdepth : depth ≤ key.length) {onward : Unit → Option (Except StructureFault Walk)}
    {answer : Unit → Except StructureFault Walk} (honward : ∀ u, onward u = some (answer u)) :
    arrive key child depth side above onward = some (child.arrive (key.drop depth) side above answer) := by
  cases child with
  | vacant => rfl
  | leaf label values hash =>
    rw [arrive, Subtree.arrive, Bits.commonPrefixFrom?_eq hdepth, Option.bind_eq_bind, Option.bind_some,
      if_leaves, honward]
    split <;> rfl
  | branch label left right hash =>
    rw [arrive, Subtree.arrive, Bits.commonPrefixFrom?_eq hdepth, Option.bind_eq_bind, Option.bind_some,
      if_leaves, honward]
    split <;> rfl

/-- **No walk cuts beyond the key or a label**, and the bits of the key are indices of children. -/
theorem follow_eq (hbits : key.WellFormed) :
    follow key t depth above = some (t.follow key depth above) := by
  induction t generalizing depth above with
  | vacant => rfl
  | leaf label values hash =>
    rw [follow, Subtree.follow]
    split <;> rfl
  | branch label left right hash ihl ihr =>
    rw [follow, Subtree.follow]
    by_cases hend : key.length ≤ depth
    · rw [if_pos hend, List.drop_eq_nil_of_le hend]
    · have hlt := Nat.lt_of_not_le hend
      have hrest := List.drop_eq_getElem_cons hlt
      rw [if_neg hend, hrest, List.getElem?_eq_getElem hlt, Option.bind_eq_bind, Option.bind_some]
      dsimp only
      by_cases hzero : key[depth] = 0
      · rw [if_pos hzero, if_pos hzero, ← hrest]
        exact arrive_eq (Nat.le_of_lt hlt) fun _ => ihl
      · have hone := (hbits _ (List.getElem_mem hlt)).resolve_left hzero
        rw [if_neg hzero, if_neg hzero, if_pos hone, ← hrest]
        exact arrive_eq (Nat.le_of_lt hlt) fun _ => ihr

theorem walk_eq (hbits : key.WellFormed) : walk t key = some (t.walk key) := follow_eq hbits

end

end Trie.Guarded

namespace PrefixTrie.Guarded

/-- Adds `entry` under `key`; the first bit of the key tells the side of the root. -/
def insert (trie : PrefixTrie) (key : Bits) (entry : ValueEntry) :
    Option (PrefixTrie × Except Error Unit) :=
  if trie.isSealed then some (trie, .error .sealedTrie)
  else
    match trie.checkKey key with
    | .error e => some (trie, .error e)
    | .ok () =>
      let trie := { trie with keyLength := some (trie.keyLength.getD key.length) }
      match trie.root with
      | .branch label left right hash => do
        if (← key[0]?) = 0 then
          let (left, added) ← Trie.Guarded.insert key entry left 0
          some (trie.replaceRoot label left right hash added)
        else
          let (right, added) ← Trie.Guarded.insert key entry right 0
          some (trie.replaceRoot label left right hash added)
      | _ => some (trie, .error (.malformed .rootIsLeaf))

theorem insert_eq (trie : PrefixTrie) (key : Bits) (entry : ValueEntry) :
    insert trie key entry = some (trie.insert key entry) := by
  unfold insert PrefixTrie.insert
  by_cases hsealed : trie.isSealed = true
  · rw [if_pos hsealed, if_pos hsealed]
  · rw [if_neg hsealed, if_neg hsealed]
    cases hkey : trie.checkKey key with
    | error e => rfl
    | ok =>
      cases key with
      | nil => cases hkey
      | cons side more =>
        obtain ⟨root, keyLength, size, isSealed⟩ := trie
        cases root with
        | vacant => rfl
        | leaf => rfl
        | branch label left right hash =>
          simp only [Trie.Guarded.insert_eq (Nat.zero_le _), List.drop_zero, List.getElem?_cons_zero,
            List.head?_cons, Option.bind_eq_bind, Option.bind_some, Option.some.injEq]
          split <;> rfl

end PrefixTrie.Guarded

namespace PersistentTrie.Guarded

open Trie Edit

/-! ## Guarded tries with epochs -/

/-- An edit that stops for good where a part is out of range. -/
abbrev GuardedEdit := OptionT Edit

def part {α : Type} (answer : Option α) : GuardedEdit α := OptionT.mk (pure answer)

def fail {α : Type} (fault : StructureFault) : GuardedEdit α := liftM (throw fault : Edit α)

/-- Parts `child` of `parent`, whose label starts at bit `depth` of the key and is left by it after
`shared` bits. -/
def splitChild (now : Nat) (key : Bits) (entry : ValueEntry) (parent child : NodeId) (side : UInt8)
    (label : Bits) (depth shared : Nat) : GuardedEdit Unit := do
  let upperLabel ← part (label.slice? 0 shared)
  let upper ← push
    ⟨upperLabel, .branch none none, Hash.zero, now, none, none, some parent⟩
  let lower ← writable now child (some upper)
  let lowerLabel ← part (label.suffix? shared)
  let lowerSide ← part lowerLabel[0]?
  update lower ({ · with label := lowerLabel })
  rehash now lower
  let below ← part (key.suffix? (depth + shared))
  let leaf ← newLeaf now below entry upper
  setChild upper lowerSide lower
  setChild upper (1 - lowerSide) leaf
  rehash now upper
  setChild parent side upper

def insertBelow (now : Nat) (key : Bits) (entry : ValueEntry) :
    (fuel : Nat) → (parent : NodeId) → (depth : Nat) → GuardedEdit Bool
  | 0, _, _ => fail .endlessDescent
  | fuel + 1, parent, depth => do
    if key.length ≤ depth then fail .keyEndsAtInternalNode
    else
      let side ← part key[depth]?
      match (← read parent).child side with
      | none =>
        let rest ← part (key.suffix? depth)
        let leaf ← newLeaf now rest entry parent
        setChild parent side leaf
        rehash now parent
        pure true
      | some child =>
        let label := (← read child).label
        let shared ← part (key.commonPrefixFrom? depth label)
        if shared < label.length then
          if key.length ≤ depth + shared then fail .keyEndsInLabel
          else
            splitChild now key entry parent child side label depth shared
            rehash now parent
            pure true
        else
          let child ← writable now child (some parent)
          setChild parent side child
          let next := depth + label.length
          match (← read child).content with
          | .leaf values =>
            if next = key.length then
              update child ({ · with content := .leaf (values ++ [entry]) })
              rehash now child
              rehash now parent
              pure false
            else fail .keyPassesLeaf
          | .branch .. =>
            let added ← insertBelow now key entry fuel child next
            rehash now parent
            pure added

def insert (trie : PersistentTrie) (key : Bits) (entry : ValueEntry) :
    Option (PersistentTrie × Except Error Unit) :=
  match trie.checkKey key with
  | .error e => some (trie, .error e)
  | .ok () =>
    let keyLength := some (trie.keyLength.getD key.length)
    let fuel := (trie.nodes.size + 1) * (key.length + 1)
    match (writable trie.epoch trie.currentRoot none).run.run trie.nodes with
    | (.error fault, nodes) => some ({ trie with nodes, keyLength }, .error (.malformed fault))
    | (.ok root, nodes) =>
      match (insertBelow trie.epoch key entry fuel root 0).run.run.run nodes with
      | (.error fault, nodes) =>
        some ({ trie with nodes, keyLength, currentRoot := root }, .error (.malformed fault))
      | (.ok none, _) => none
      | (.ok (some isNew), nodes) =>
        let size := if isNew then trie.size + 1 else trie.size
        some ({ trie with nodes, keyLength, currentRoot := root, size }, .ok ())

/-- Follows `key` from `node`, whose label ends at bit `depth` of it.  The bit is the index of a child. -/
def follow (trie : PersistentTrie) (reading : Nat) (key : Bits) :
    (fuel : Nat) → (node : VersionedNode) → (depth : Nat) → List CopathEntry → List NodeId →
    Option (Except StructureFault (Walk × List NodeId))
  | 0, _, _, _, _ => some (.error .endlessDescent)
  | fuel + 1, node, depth, above, path =>
    match node.content with
    | .leaf values =>
      if depth = key.length then some (.ok (⟨above, .found node.label values⟩, path))
      else some (.error (.leafBeforeKeyEnd depth key.length))
    | .branch left right =>
      if key.length ≤ depth then some (.error .keyEndsAtBranch)
      else do
        let side ← key[depth]?
        let taken ← [left, right][side.toNat]?
        let other ← [left, right][1 - side.toNat]?
        let above := ⟨node.label, trie.hashOf? other⟩ :: above
        match taken with
        | none => some (.ok (⟨above, .vacant side⟩, path))
        | some id =>
          match trie.expose reading id with
          | .error fault => some (.error fault)
          | .ok child =>
            if (← key.commonPrefixFrom? depth child.label) < child.label.length then
              some (.ok (⟨above, .diverged child.label child.hash⟩, id :: path))
            else follow trie reading key fuel child (depth + child.label.length) above (id :: path)

/-- The walk from the root of `epoch`. -/
def walk (trie : PersistentTrie) (key : Bits) (epoch : Nat) :
    Option (Except Error (Walk × List NodeId)) :=
  match trie.checkKey key, trie.rootAt epoch with
  | .error e, _ => some (.error e)
  | .ok (), .error e => some (.error e)
  | .ok (), .ok root =>
    match trie.expose epoch root with
    | .error fault => some (.error (.malformed fault))
    | .ok node => do
      let fuel := (trie.nodes.size + 1) * (key.length + 1)
      match ← follow trie epoch key fuel node node.label.length [] [root] with
      | .error fault => some (.error (.malformed fault))
      | .ok (walk, path) => some (.ok (walk, path.reverse))

section

variable {now : Nat} {key : Bits} {entry : ValueEntry}

theorem part_some_bind {α β : Type} (a : α) (rest : α → GuardedEdit β) :
    (part (some a) >>= rest) = rest a := by
  rfl

theorem splitChild_eq {parent child : NodeId} {side : UInt8} {label : Bits} {depth shared : Nat}
    (hshared : shared < label.length) (hbelow : depth + shared ≤ key.length) :
    splitChild now key entry parent child side label depth shared =
      liftM (Edit.splitChild now entry parent child side label shared
        (key.drop (depth + shared))) := by
  have hlower : (label.drop shared)[0]? = some ((label.drop shared).headD 0) := by
    rw [List.drop_eq_getElem_cons hshared]
    rfl
  unfold splitChild Edit.splitChild
  rw [Bits.slice?_zero (Nat.le_of_lt hshared), Bits.suffix?_eq (Nat.le_of_lt hshared),
    Bits.suffix?_eq hbelow]
  simp only [part_some_bind, hlower, liftM_bind]

/-- **No insertion cuts beyond the key or a label**, whatever the arena. -/
theorem insertBelow_eq (fuel : Nat) (parent : NodeId) (depth : Nat) :
    insertBelow now key entry fuel parent depth =
      liftM (Edit.insertBelow now key entry fuel parent depth) := by
  induction fuel generalizing parent depth with
  | zero => rfl
  | succ fuel ih =>
    rw [insertBelow, Edit.insertBelow]
    by_cases hend : key.length ≤ depth
    · rw [if_pos hend, List.drop_eq_nil_of_le hend]
      rfl
    · have hlt := Nat.lt_of_not_le hend
      have hrest := List.drop_eq_getElem_cons hlt
      rw [if_neg hend, List.getElem?_eq_getElem hlt, part_some_bind, hrest]
      dsimp only
      rw [← hrest, liftM_bind]
      refine bind_congr fun node => ?_
      cases node.child key[depth] with
      | none =>
        rw [Bits.suffix?_eq (Nat.le_of_lt hlt)]
        simp only [part_some_bind, liftM_bind, liftM_pure]
      | some child =>
        dsimp only
        rw [liftM_bind]
        refine bind_congr fun below => ?_
        rw [Bits.commonPrefixFrom?_eq (Nat.le_of_lt hlt), part_some_bind]
        by_cases hshared : Bits.commonPrefix (key.drop depth) below.label < below.label.length
        · rw [if_pos hshared, if_pos hshared, List.drop_drop]
          generalize Bits.commonPrefix (key.drop depth) below.label = shared at hshared ⊢
          by_cases hpast : key.length ≤ depth + shared
          · rw [if_pos hpast, List.drop_eq_nil_of_le hpast]
            rfl
          · rw [if_neg hpast, splitChild_eq hshared (Nat.le_of_not_le hpast),
              List.drop_eq_getElem_cons (Nat.lt_of_not_le hpast)]
            simp only [liftM_bind, liftM_pure]
        · rw [if_neg hshared, if_neg hshared]
          simp only [liftM_bind]
          refine bind_congr fun copy => bind_congr fun _ => bind_congr fun node => ?_
          cases node.content with
          | leaf values =>
            by_cases hlast : depth + below.label.length = key.length
            · simp only [if_pos hlast, liftM_bind, liftM_pure]
            · simp only [if_neg hlast]
              rfl
          | branch left right => simp only [ih, liftM_bind, liftM_pure]

/-- An edit with no guards in it does not stop. -/
theorem run_liftM {α : Type} (edit : Edit α) (nodes : Array VersionedNode) :
    (liftM edit : GuardedEdit α).run.run.run nodes =
      match edit.run.run nodes with
      | (.error fault, nodes) => (.error fault, nodes)
      | (.ok a, nodes) => (.ok (some a), nodes) := by
  show (ExceptT.run (edit >>= fun a => pure (some a))).run nodes = _
  rw [ExceptT.run_bind, StateT.run_bind]
  generalize edit.run.run nodes = left
  obtain ⟨fault | a, nodes⟩ := left <;> rfl

theorem insert_eq (trie : PersistentTrie) (key : Bits) (entry : ValueEntry) :
    insert trie key entry = some (trie.insert key entry) := by
  unfold insert PersistentTrie.insert
  cases trie.checkKey key with
  | error e => rfl
  | ok =>
    dsimp only
    generalize (writable trie.epoch trie.currentRoot none).run.run trie.nodes = opened
    obtain ⟨root | fault, nodes⟩ := opened
    · rfl
    · dsimp only
      rw [insertBelow_eq, run_liftM]
      generalize (Edit.insertBelow trie.epoch key entry _ _ 0).run.run nodes = left
      obtain ⟨fault | isNew, nodes⟩ := left <;> rfl

/-- **No walk cuts beyond the key or a label**, and the bits of the key are indices of children. -/
theorem follow_eq (trie : PersistentTrie) (reading : Nat) (hbits : key.WellFormed) (fuel : Nat)
    (node : VersionedNode) (depth : Nat) (above : List CopathEntry) (path : List NodeId) :
    follow trie reading key fuel node depth above path =
      some (trie.follow reading key fuel node depth above path) := by
  induction fuel generalizing node depth above path with
  | zero => rfl
  | succ fuel ih =>
    rw [follow, PersistentTrie.follow]
    cases node.content with
    | leaf values =>
      dsimp only
      split <;> rfl
    | branch left right =>
      dsimp only
      by_cases hend : key.length ≤ depth
      · rw [if_pos hend, List.drop_eq_nil_of_le hend]
      · have hlt := Nat.lt_of_not_le hend
        have hrest := List.drop_eq_getElem_cons hlt
        rw [if_neg hend, List.getElem?_eq_getElem hlt, hrest, Option.bind_eq_bind, Option.bind_some]
        dsimp only
        rw [← hrest]
        -- what follows is the same on either side
        obtain ⟨taken, other, htaken, hother, hpair⟩ : ∃ taken other,
            [left, right][key[depth].toNat]? = some taken ∧
            [left, right][1 - key[depth].toNat]? = some other ∧
            (if key[depth] = 0 then (left, right) else (right, left)) = (taken, other) := by
          rcases hbits _ (List.getElem_mem hlt) with hzero | hone
          · exact ⟨left, right, by rw [hzero]; rfl, by rw [hzero]; rfl, if_pos hzero⟩
          · exact ⟨right, left, by rw [hone]; rfl, by rw [hone]; rfl, if_neg (by rw [hone]; decide)⟩
        rw [htaken, hother, hpair]
        simp only [bind, Except.bind, Option.bind_some]
        cases taken with
        | none => rfl
        | some id =>
          dsimp only
          cases trie.expose reading id with
          | error fault => rfl
          | ok child =>
            dsimp only
            rw [Bits.commonPrefixFrom?_eq (Nat.le_of_lt hlt), Option.bind_some, Trie.Guarded.if_leaves, ih]
            split <;> rfl

theorem walk_eq (trie : PersistentTrie) (hbits : key.WellFormed) (epoch : Nat) :
    walk trie key epoch = some (trie.walk key epoch) := by
  unfold walk PersistentTrie.walk
  cases trie.checkKey key with
  | error e => rfl
  | ok =>
    cases trie.rootAt epoch with
    | error e => rfl
    | ok root =>
      simp only [bind, Except.bind]
      cases trie.expose epoch root with
      | error fault => rfl
      | ok node =>
        simp only [follow_eq trie epoch hbits, Option.bind_some]
        cases trie.follow epoch key ((trie.nodes.size + 1) * (key.length + 1)) node node.label.length []
          [root] <;> rfl

end

end PersistentTrie.Guarded

end KeyTransparency
