import KeyTransparency.Proofs.Preimage

/-!
# No two commitments share a byte string

Neither the number of the parts nor an end is written to a hashed byte string, only the length before
each part.  That is enough: what follows a part that eight bytes can measure is where the next one
starts, so the string says its domain and its list of parts, however many.

    parts, parts' short → preimage d parts = preimage d' parts' → d = d' ∧ parts = parts'  (preimage_inj)

Every commitment is to one of a few kinds of inputs (`Commitment`), some of which share a domain: the
root of an empty log and the nodes of a log, the leaves and the nodes of a forest.  Two of them have
the same byte string if and only if they are of one kind and have the same inputs; only of the left
one of two forest nodes the string holds no more than the hash (`Alike`).

    x.Short → y.Short → (x.preimage = y.preimage ↔ Alike x y)                      (preimages_unambiguous)
-/

namespace KeyTransparency

namespace Hash

/-- Eight bytes can measure each of the parts. -/
def Short (parts : List Bytes) : Prop := ∀ part ∈ parts, part.length < UInt64.size

instance (parts : List Bytes) : Decidable (Short parts) :=
  inferInstanceAs (Decidable (∀ part ∈ parts, part.length < UInt64.size))

theorem short_cons {part : Bytes} {parts : List Bytes} :
    Short (part :: parts) ↔ part.length < UInt64.size ∧ Short parts :=
  List.forall_mem_cons

theorem framed_append_ne_nil {part rest : Bytes} : framed part ++ rest ≠ [] := by
  intro h
  have hlength := congrArg List.length h
  simp [framed] at hlength

/-- Short parts are told apart by the lengths before them. -/
theorem frames_inj {parts parts' : List Bytes} (hparts : Short parts) (hparts' : Short parts')
    (h : parts.flatMap framed = parts'.flatMap framed) : parts = parts' := by
  induction parts generalizing parts' with
  | nil =>
    cases parts' with
    | nil => rfl
    | cons part' parts' =>
      rw [List.flatMap_nil, List.flatMap_cons] at h
      exact absurd h.symm framed_append_ne_nil
  | cons part parts ih =>
    cases parts' with
    | nil =>
      rw [List.flatMap_nil, List.flatMap_cons] at h
      exact absurd h framed_append_ne_nil
    | cons part' parts' =>
      rw [short_cons] at hparts hparts'
      rw [List.flatMap_cons, List.flatMap_cons] at h
      have hlength (hmod : part.length % Bytes.bound 8 = part'.length % Bytes.bound 8) :
          part.length = part'.length := by
        rwa [show Bytes.bound 8 = UInt64.size from rfl, Nat.mod_eq_of_lt hparts.1,
          Nat.mod_eq_of_lt hparts'.1] at hmod
      obtain ⟨rfl, hrest⟩ := framed_append_inj h hlength
      rw [ih hparts.2 hparts'.2 hrest]

/-- The hashed byte string says what it is hashed of. -/
theorem preimage_inj {d d' : Domain} {parts parts' : List Bytes} (hparts : Short parts)
    (hparts' : Short parts') (h : preimage d parts = preimage d' parts') : d = d' ∧ parts = parts' :=
  ⟨preimage_domain h, frames_inj hparts hparts' (List.cons.inj h).2⟩

end Hash

/-! ## Kinds of commitments -/

/-- What a commitment may be to. -/
inductive Commitment
  | trieLeaf (label : Bits) (values : List ValueEntry)
  | trieNode (label : Bits) (left right : Option Hash)
  | logLeaf (entry : LogEntry)
  | logNode (left right : Hash)
  | emptyLog
  | forestLeaf (trieRoot : Hash) (period : UInt64)
  | forestNode (left right : ForestNode)
  | content (identifier value signature : Bytes) (position : UInt64)
  | chain (older newer : Hash) (updateEpoch : UInt64) (previous : Hash)
deriving DecidableEq

namespace Commitment

def hash : Commitment → Hash
  | trieLeaf label values => Trie.leafHash label values
  | trieNode label left right => Trie.internalHash label left right
  | logLeaf entry => Log.leafHash entry
  | logNode left right => Log.nodeHash left right
  | emptyLog => Log.emptyRoot
  | forestLeaf trieRoot period => (ForestNode.leaf trieRoot period).hash
  | forestNode left right => (ForestNode.combine left right).hash
  | content identifier value signature position => contentHash identifier value signature position
  | chain older newer updateEpoch previous => chainLink older newer updateEpoch previous

def domain : Commitment → Domain
  | trieLeaf .. => .trieLeaf
  | trieNode .. => .trieInternal
  | logLeaf .. => .logLeaf
  | logNode .. | emptyLog => .logNode
  | forestLeaf .. | forestNode .. => .forestNode
  | content .. => .content
  | chain .. => .chain

def parts : Commitment → List Bytes
  | trieLeaf label values => [label, Trie.encodeValues values]
  | trieNode label left right => [label, Trie.childBytes left, Trie.childBytes right]
  | logLeaf entry => [Bytes.bigEndian64 entry.epoch, entry.root.bytes]
  | logNode left right => [left.bytes, right.bytes]
  | emptyLog => []
  | forestLeaf trieRoot period => [trieRoot.bytes, Bytes.bigEndian64 period]
  | forestNode left right =>
    [left.hash.bytes, right.hash.bytes, right.newestLeaf.bytes, Bytes.bigEndian64 right.period]
  | content identifier value signature position =>
    [identifier, value, signature, Bytes.bigEndian64 position]
  | chain older newer updateEpoch previous =>
    [older.bytes, newer.bytes, Bytes.bigEndian64 updateEpoch, previous.bytes]

def preimage (x : Commitment) : Bytes := Hash.preimage x.domain x.parts

/-- Every commitment is the hash of its byte string. -/
theorem hash_eq (x : Commitment) : x.hash = Hash.digest x.preimage := by cases x <;> rfl

def Short (x : Commitment) : Prop := Hash.Short x.parts

instance (x : Commitment) : Decidable x.Short := inferInstanceAs (Decidable (Hash.Short x.parts))

/-- To the same, as far as it is hashed. -/
inductive Alike : Commitment → Commitment → Prop
  | refl (x : Commitment) : Alike x x
  /-- The left node stands for its leaves by its hash alone. -/
  | forestNode {left left' : ForestNode} (right : ForestNode) (h : left.hash = left'.hash) :
      Alike (.forestNode left right) (.forestNode left' right)

variable {x y : Commitment}

theorem Alike.preimage_eq (h : Alike x y) : x.preimage = y.preimage := by
  cases h with
  | refl => rfl
  | forestNode right hleft => rw [preimage, preimage, parts, parts, hleft]; rfl

theorem alike_of_preimage_eq (hx : x.Short) (hy : y.Short) (h : x.preimage = y.preimage) :
    Alike x y := by
  obtain ⟨hdomain, hparts⟩ := Hash.preimage_inj hx hy h
  -- commitments that share a domain differ in the number of their parts
  cases x with
  | trieLeaf label values =>
    cases y <;> cases hdomain
    obtain ⟨rfl, hvalues⟩ := List.cons.inj hparts
    rw [Trie.encodeValues_inj (List.cons.inj hvalues).1]
    exact .refl _
  | trieNode label left right =>
    cases y <;> cases hdomain
    obtain ⟨rfl, rfl, rfl⟩ := Trie.internalPreimage_inj h
    exact .refl _
  | logLeaf entry =>
    cases y <;> cases hdomain
    rw [Log.leafPreimage_inj h]
    exact .refl _
  | logNode left right =>
    cases y <;> cases hdomain
    · obtain ⟨rfl, rfl⟩ := Log.nodePreimage_inj h
      exact .refl _
    · cases hparts
  | emptyLog =>
    cases y <;> cases hdomain
    · cases hparts
    · exact .refl _
  | forestLeaf trieRoot period =>
    cases y <;> cases hdomain
    · obtain ⟨rfl, rfl⟩ := ForestNode.leafPreimage_inj h
      exact .refl _
    · cases congrArg List.length hparts
  | forestNode left right =>
    cases y <;> cases hdomain
    · cases congrArg List.length hparts
    · obtain ⟨hleft, rfl⟩ := ForestNode.combinePreimage_inj h
      exact .forestNode _ hleft
  | content identifier value signature position =>
    cases y <;> cases hdomain
    obtain ⟨rfl, hvalue⟩ := List.cons.inj hparts
    obtain ⟨rfl, hsignature⟩ := List.cons.inj hvalue
    obtain ⟨rfl, hposition⟩ := List.cons.inj hsignature
    cases Bytes.bigEndian64_inj (List.cons.inj hposition).1
    exact .refl _
  | chain older newer updateEpoch previous =>
    cases y <;> cases hdomain
    obtain ⟨rfl, rfl, rfl, rfl⟩ := chainPreimage_inj h
    exact .refl _

/-- **Hashed byte strings are unambiguous.**  They say their domain and their parts, and no two
commitments share one but those to two forest nodes of which the left ones have the same hash. -/
theorem preimages_unambiguous :
    (∀ (d d' : Domain) (parts parts' : List Bytes), Hash.Short parts → Hash.Short parts' →
        Hash.preimage d parts = Hash.preimage d' parts' → d = d' ∧ parts = parts') ∧
      (∀ x : Commitment, x.hash = Hash.digest x.preimage) ∧
      ∀ x y : Commitment, x.Short → y.Short → (x.preimage = y.preimage ↔ Alike x y) :=
  ⟨fun _ _ _ _ => Hash.preimage_inj, hash_eq,
    fun _ _ hx hy => ⟨alike_of_preimage_eq hx hy, Alike.preimage_eq⟩⟩

/-- Two forest nodes of which the left ones differ, but not in their hashes. -/
theorem preimages_unambiguous_of_forest_nodes :
    let right : ForestNode := ⟨Hash.zero, Hash.zero, 2⟩
    let x : Commitment := .forestNode ⟨Hash.zero, Hash.zero, 0⟩ right
    let y : Commitment := .forestNode ⟨Hash.zero, Hash.zero, 1⟩ right
    (x.Short ∧ y.Short ∧ x.preimage = y.preimage) ∧
      (x.domain = y.domain ∧ x.parts = y.parts) ∧ Alike x y := by
  intro right x y
  have hx : x.Short := by decide +kernel
  have hy : y.Short := by decide +kernel
  have h : x.preimage = y.preimage := by decide +kernel
  exact ⟨⟨hx, hy, h⟩, preimages_unambiguous.1 _ _ _ _ hx hy h,
    (preimages_unambiguous.2.2 x y hx hy).1 h⟩

/-- Of the left node neither the newest leaf nor its period is hashed again. -/
theorem combine_shares_preimage :
    let left : ForestNode := ⟨Hash.zero, Hash.zero, 0⟩
    let left' : ForestNode := ⟨Hash.zero, ⟨List.replicate 32 1, List.length_replicate⟩, 1⟩
    let right : ForestNode := ⟨Hash.zero, Hash.zero, 1⟩
    ((Commitment.forestNode left right).Short ∧ (Commitment.forestNode left' right).Short) ∧
      left ≠ left' ∧
      ForestNode.combinePreimage left right = ForestNode.combinePreimage left' right := by
  decide +kernel

end Commitment

end KeyTransparency
