import KeyTransparency.Proofs.Preimage
import KeyTransparency.Proofs.Trie.Completeness

/-!
# What a verified proof binds

The byte strings hashed for the nodes of a trie (`Subtree.preimages`) and during a verification
(`MembershipProof.preimages`, `NonMembershipProof.preimages`) are lists of their own, so that a
statement about a forged proof can leave open exactly a collision among them.

    foldCopath child left copath = root.hash? →
      copath is that of a node t of the trie and child = t.hash?, or a collision   (below_of_fold)

A membership proof therefore binds the key and the values.  A non-membership proof binds the copath
and the hash at the frontier, but not the label at the frontier, which nothing hashes: the verifier
only reads its first bit and whether the key goes along it.  `MislabelsFrontier` is what that lets
through.
-/

namespace KeyTransparency

open Trie

/-! ## Hashed strings -/

def Trie.Subtree.preimages : Subtree → List Bytes
  | .vacant => []
  | .leaf label values _ => [leafPreimage label values]
  | .branch label left right _ =>
    internalPreimage label left.hash? right.hash? :: (left.preimages ++ right.preimages)

def CopathEntry.joinPreimage (entry : CopathEntry) (child : Option Hash) (fromLeft : Bool) : Bytes :=
  if fromLeft then internalPreimage entry.label child entry.sibling
  else internalPreimage entry.label entry.sibling child

/-- What folding a copath hashes, from the bottom up, until the fold gives up or reaches the root. -/
def Trie.foldPreimages (child : Option Hash) (fromLeft : Bool) : List CopathEntry → List Bytes
  | [] => []
  | [root] => if root.label = [] then [root.joinPreimage child fromLeft] else []
  | entry :: above =>
    match entry.label, entry.sibling with
    | side :: _, some _ =>
      entry.joinPreimage child fromLeft ::
        foldPreimages (some (entry.join child fromLeft)) (side == 0) above
    | _, _ => []

def MembershipProof.preimages (proof : MembershipProof) (key : Bits) (values : List ValueEntry) :
    List Bytes :=
  match proof.leafLabel with
  | [] => []
  | side :: _ =>
    if pathPrefix proof.copath ++ proof.leafLabel = key then
      leafPreimage proof.leafLabel values ::
        foldPreimages (some (leafHash proof.leafLabel values)) (side == 0) proof.copath
    else []

def NonMembershipProof.preimages (proof : NonMembershipProof) (key : Bits) : List Bytes :=
  let above := pathPrefix proof.copath
  match proof.frontierLabel with
  | [] => []
  | side :: _ =>
    let rest := key.drop above.length
    if above <+: key ∧ rest.head? = some side ∧ proof.diverges rest then
      foldPreimages proof.frontierHash (side == 0) proof.copath
    else []

theorem CopathEntry.join_eq (entry : CopathEntry) (child : Option Hash) (fromLeft : Bool) :
    entry.join child fromLeft = Hash.digest (entry.joinPreimage child fromLeft) := by
  cases fromLeft <;> rfl

namespace Trie

/-- An entry below the root that folds has a label and a sibling, and is hashed. -/
theorem foldCopath_cons_eq_some {above : List CopathEntry} (h : above ≠ []) {entry : CopathEntry}
    {child : Option Hash} {fromLeft : Bool} {hash : Hash}
    (hfold : foldCopath child fromLeft (entry :: above) = some hash) :
    ∃ side : UInt8, entry.label.head? = some side ∧
      foldCopath (some (entry.join child fromLeft)) (side == 0) above = some hash ∧
      foldPreimages child fromLeft (entry :: above) = entry.joinPreimage child fromLeft ::
        foldPreimages (some (entry.join child fromLeft)) (side == 0) above := by
  obtain ⟨a, as, rfl⟩ := List.exists_cons_of_ne_nil h
  unfold foldCopath at hfold
  split at hfold
  · next side low sibling hlabel hsibling =>
    refine ⟨side, by rw [hlabel, List.head?_cons], hfold, ?_⟩
    simp only [foldPreimages, hlabel, hsibling]
  · cases hfold

namespace Subtree

/-! ## Going down along a folded copath -/

theorem Sides.preimages_subset {t x y : Subtree} {side : UInt8} (h : Sides t side x y) :
    x.preimages ⊆ t.preimages := by
  intro s hs
  cases h with
  | left => exact List.mem_cons_of_mem _ (List.mem_append_left _ hs)
  | right => exact List.mem_cons_of_mem _ (List.mem_append_right _ hs)

theorem Below.preimages_subset {root t : Subtree} {copath : List CopathEntry} {side : UInt8}
    (h : Below root copath side t) : t.preimages ⊆ root.preimages := by
  induction h with
  | top hs => exact hs.preimages_subset
  | down _ hs ih => exact List.Subset.trans hs.preimages_subset ih

/-- A branch whose hash an entry folds into has the label of the entry, and the two hashes. -/
theorem sides_of_join {t : Subtree} {n : Nat} {b : UInt8} (ht : Rooted n t ∨ Grown b n t)
    {entry : CopathEntry} {child : Option Hash} {fromLeft : Bool}
    (hjoin : t.hash? = some (entry.join child fromLeft)) {strings : List Bytes}
    (htree : t.preimages ⊆ strings) (hentry : entry.joinPreimage child fromLeft ∈ strings) :
    (∃ side x y, Sides t side x y ∧ entry = ⟨t.label, y.hash?⟩ ∧ child = x.hash? ∧
      fromLeft = (side == 0)) ∨ Collision strings := by
  rw [CopathEntry.join_eq] at hjoin
  -- a leaf's preimage is of another kind, so only a branch is left
  have hbranch : ∀ label left right, t = ofBranch label left right →
      (∃ side x y, Sides t side x y ∧ entry = ⟨t.label, y.hash?⟩ ∧ child = x.hash? ∧
        fromLeft = (side == 0)) ∨ Collision strings := by
    rintro label left right rfl
    rcases eq_or_collision (htree List.mem_cons_self) hentry (Option.some.inj hjoin) with heq | hcol
    · left
      obtain ⟨elabel, sibling⟩ := entry
      cases fromLeft with
      | true =>
        obtain ⟨rfl, rfl, rfl⟩ := internalPreimage_inj heq
        exact ⟨0, left, right, .left, rfl, rfl, rfl⟩
      | false =>
        obtain ⟨rfl, rfl, rfl⟩ := internalPreimage_inj heq
        exact ⟨1, right, left, .right, rfl, rfl, rfl⟩
    · exact .inr hcol
  rcases ht with ht | ht
  · cases ht
    exact hbranch _ _ _ rfl
  · cases ht with
    | leaf =>
      right
      rcases eq_or_collision (htree List.mem_cons_self) hentry (Option.some.inj hjoin) with heq | hcol
      · cases fromLeft <;> exact absurd heq leafPreimage_ne_internalPreimage
      · exact hcol
    | branch => exact hbranch _ _ _ rfl

/-- **A copath that folds to the root hash is the trie's own.** -/
theorem below_of_fold {root : Subtree} {n : Nat} (hroot : Rooted n root) {hash : Hash}
    (hhash : root.hash? = some hash) {strings : List Bytes} (htree : root.preimages ⊆ strings)
    {copath : List CopathEntry} {child : Option Hash} {fromLeft : Bool}
    (hfold : foldCopath child fromLeft copath = some hash)
    (hstrings : foldPreimages child fromLeft copath ⊆ strings) :
    (∃ side t, Below root copath side t ∧ child = t.hash? ∧ fromLeft = (side == 0)) ∨
      Collision strings := by
  induction copath generalizing child fromLeft with
  | nil => cases hfold
  | cons entry above ih =>
    by_cases habove : above = []
    · subst habove
      rw [foldCopath] at hfold
      rw [foldPreimages] at hstrings
      split at hfold
      · next hlabel =>
        rw [if_pos hlabel] at hstrings
        rcases sides_of_join (b := 0) (.inl hroot) (hhash.trans hfold.symm) htree
          (hstrings List.mem_cons_self) with ⟨side, x, y, hsides, rfl, hchild, hleft⟩ | hcol
        · exact .inl ⟨side, x, .top hsides, hchild, hleft⟩
        · exact .inr hcol
      · cases hfold
    · obtain ⟨b, -, hfold, hhashed⟩ := foldCopath_cons_eq_some habove hfold
      rw [hhashed] at hstrings
      rcases ih hfold fun s hs => hstrings (List.mem_cons_of_mem _ hs) with
        ⟨side, t, hbelow, hjoin, -⟩ | hcol
      · obtain ⟨m, -, ht | ⟨rfl, -⟩⟩ := hbelow.grown hroot
        · rcases sides_of_join (.inr ht) hjoin.symm
            (List.Subset.trans hbelow.preimages_subset htree) (hstrings List.mem_cons_self) with
            ⟨s, x, y, hsides, rfl, hchild, hleft⟩ | hcol
          · exact .inl ⟨s, x, hbelow.down hsides, hchild, hleft⟩
          · exact .inr hcol
        · cases hjoin
      · exact .inr hcol

end Subtree

end Trie

/-! ## Membership -/

/-- Two leaves with one hash are one leaf, or a collision; the bound is on the first only. -/
theorem Trie.leaf_eq_of_hash_eq {l l' : Bits} {values values' : List ValueEntry}
    (hl : l.length < UInt64.size) (hv : 40 * values.length < UInt64.size) {strings : List Bytes}
    (hmem : leafPreimage l values ∈ strings) (hmem' : leafPreimage l' values' ∈ strings)
    (h : leafHash l values = leafHash l' values') :
    (l = l' ∧ values = values') ∨ Collision strings := by
  rcases eq_or_collision hmem hmem' h with heq | hcol
  · exact .inl (leafPreimage_inj hl hv heq)
  · exact .inr hcol

theorem MembershipProof.preimages_of_verify {proof : MembershipProof} {key : Bits}
    (values : List ValueEntry) {side : UInt8} (hlabel : proof.leafLabel.head? = some side)
    (hkey : pathPrefix proof.copath ++ proof.leafLabel = key) :
    proof.preimages key values = leafPreimage proof.leafLabel values ::
      foldPreimages (some (leafHash proof.leafLabel values)) (side == 0) proof.copath := by
  obtain ⟨label, copath⟩ := proof
  obtain ⟨low, rfl⟩ := List.head?_eq_some_iff.1 hlabel
  exact if_pos hkey

namespace Trie.Subtree

/-- What a verified membership proof names is a leaf of the trie, with that label and those values. -/
theorem find?_of_verify {root : Subtree} {n : Nat} (hroot : Rooted n root) {hash : Hash}
    (hhash : root.hash? = some hash) {proof : MembershipProof} {key : Bits}
    {values : List ValueEntry} (hverify : proof.verify key values hash = .ok ())
    (hshort : ∀ k vs, root.find? k = some vs →
      k.length < UInt64.size ∧ 40 * vs.length < UInt64.size) :
    (root.find? key = some values ∧ key ≠ [] ∧ key.length = n ∧ key.WellFormed) ∨
      Collision (root.preimages ++ proof.preimages key values) := by
  obtain ⟨side, hlabel, hkey, hfold⟩ := MembershipProof.verify_eq_ok_iff.1 hverify
  have hhashed := proof.preimages_of_verify values hlabel hkey
  have hmem : leafPreimage proof.leafLabel values ∈
      root.preimages ++ proof.preimages key values :=
    List.mem_append_right _ (hhashed ▸ List.mem_cons_self)
  rcases below_of_fold hroot hhash (List.subset_append_left _ (proof.preimages key values)) hfold
    (fun s hs => List.mem_append_right _ (hhashed ▸ List.mem_cons_of_mem _ hs)) with
    ⟨b, t, hbelow, hchild, -⟩ | hcol
  · obtain ⟨m, hlen, ht | ⟨rfl, -⟩⟩ := hbelow.grown hroot
    · have htree := hbelow.preimages_subset
      cases ht with
      | @leaf _ _ label held hhead hbits hm =>
        obtain ⟨low, rfl⟩ := List.head?_eq_some_iff.1 hhead
        have hfound : root.find? (pathPrefix proof.copath ++ b :: low) = some held := by
          rw [hbelow.find? hroot, find?_ofLeaf, if_pos rfl]
        obtain ⟨hkeyShort, hheldShort⟩ := hshort _ _ hfound
        rw [List.length_append] at hkeyShort
        rcases leaf_eq_of_hash_eq (by omega) hheldShort
          (List.mem_append_left _ (htree List.mem_cons_self)) hmem
          (Option.some.inj hchild).symm with ⟨hl, rfl⟩ | hcol
        · left
          rw [← hkey, ← hl]
          refine ⟨hfound, by simp, by rw [List.length_append, hm, hlen], ?_⟩
          exact Bits.WellFormed.append_iff.2 ⟨hbelow.wellFormed hroot, hbits⟩
        · exact .inr hcol
      | branch =>
        rcases eq_or_collision hmem (List.mem_append_left _ (htree List.mem_cons_self))
          (Option.some.inj hchild) with heq | hcol
        · exact absurd heq leafPreimage_ne_internalPreimage
        · exact .inr hcol
    · cases hchild
  · exact .inr hcol

end Trie.Subtree

namespace PrefixTrie

/-- Keys and lists of values whose encodings eight bytes can measure, as any in memory can be. -/
def LengthsFit (done : List Insertion) : Prop :=
  ∀ insertion ∈ done, insertion.1.length < UInt64.size ∧
    40 * (entriesUnder insertion.1 done).length < UInt64.size

instance (done : List Insertion) : Decidable (LengthsFit done) :=
  inferInstanceAs (Decidable (∀ insertion ∈ done, _ ∧ _))

/-- **Membership is sound.**  A verified proof shows what the trie holds under the key, unless two
of the strings hashed collide.  Lengths are hashed as eight bytes, so the keys and lists of the trie
have to be ones that eight bytes can measure; those that come with the proof need not. -/
theorem membership_sound (keyLength : Option Nat) (inserts : List Insertion)
    (hbits : ∀ insertion ∈ inserts, insertion.1.WellFormed)
    (hfit : LengthsFit ((empty keyLength).accepted inserts)) (key : Bits)
    (values : List ValueEntry) (proof : MembershipProof)
    (hverify : proof.verify key values ((empty keyLength).insertAll inserts).rootHash = .ok ()) :
    ((empty keyLength).insertAll inserts).get? key = .ok (some values) ∨
      Collision (((empty keyLength).insertAll inserts).root.preimages ++
        proof.preimages key values) := by
  have h := reached_insertAll keyLength hbits
  generalize (empty keyLength).insertAll inserts = trie at h hverify ⊢
  have hroot := h.rooted (trie.keyLength.getD 0) (by simp +contextual)
  have hshort : ∀ k vs, trie.root.find? k = some vs →
      k.length < UInt64.size ∧ 40 * vs.length < UInt64.size := by
    intro k vs hk
    rw [h.find] at hk
    obtain ⟨⟨entry, hmem⟩, rfl⟩ := mem_of_held? hk
    exact hfit _ hmem
  rcases Subtree.find?_of_verify hroot h.hash?_root hverify hshort with
    ⟨hfind, hkey, hlen, hkeyBits⟩ | hcol
  · left
    have hadmits : trie.Admits key := ⟨hkey, fun n hn => by rw [hlen, hn]; rfl⟩
    rw [h.get?_eq hadmits hkeyBits, ← h.find, hfind]
  · exact .inr hcol

/-- Two keys; the first, which has two values, is proved. -/
theorem membership_sound_two_keys :
    let entries : List ValueEntry := [⟨Hash.zero, 0⟩, ⟨Hash.zero, 2⟩]
    let inserts : List Insertion :=
      [([0, 1], ⟨Hash.zero, 0⟩), ([1, 1], ⟨Hash.zero, 1⟩), ([0, 1], ⟨Hash.zero, 2⟩)]
    let trie := (empty none).insertAll inserts
    let proof : MembershipProof := ⟨[0, 1], [⟨[], (trie.root.child 1).hash?⟩]⟩
    (∀ insertion ∈ inserts, insertion.1.WellFormed) ∧ LengthsFit ((empty none).accepted inserts) ∧
      proof.verify [0, 1] entries trie.rootHash = .ok () ∧
      (trie.get? [0, 1] = .ok (some entries) ∨
        Collision (trie.root.preimages ++ proof.preimages [0, 1] entries)) := by
  intro entries inserts trie proof
  have hbits : ∀ insertion ∈ inserts, insertion.1.WellFormed := by decide
  have hfit : LengthsFit ((empty none).accepted inserts) := by decide +kernel
  have hverify : proof.verify [0, 1] entries trie.rootHash = .ok () := by decide +kernel
  exact ⟨hbits, hfit, hverify, membership_sound none inserts hbits hfit [0, 1] entries proof hverify⟩

end PrefixTrie

/-! ## Non-membership -/

/-- The proof runs along `key` to a node of the trie that the key goes through, but names a label of
its own there: one with the node's first bit that the key leaves. -/
structure NonMembershipProof.MislabelsFrontier (proof : NonMembershipProof) (root : Subtree)
    (key : Bits) (side : UInt8) (node : Subtree) (more : Bits) : Prop where
  below : Subtree.Below root proof.copath side node
  key_eq : key = pathPrefix proof.copath ++ side :: more
  through : node ≠ .vacant ∧ node.label <+: side :: more
  hash : proof.frontierHash = node.hash?
  head : proof.frontierLabel.head? = some side
  leaves : ¬ proof.frontierLabel <+: side :: more

theorem NonMembershipProof.preimages_of_verify {proof : NonMembershipProof} {side : UInt8}
    {more : Bits} (hlabel : proof.frontierLabel.head? = some side)
    (hdiverges : proof.diverges (side :: more) = true) :
    proof.preimages (pathPrefix proof.copath ++ side :: more) =
      foldPreimages proof.frontierHash (side == 0) proof.copath := by
  obtain ⟨hash, label, copath⟩ := proof
  obtain ⟨low, rfl⟩ := List.head?_eq_some_iff.1 hlabel
  refine if_pos ⟨List.prefix_append _ _, ?_⟩
  rw [List.drop_left]
  exact ⟨rfl, hdiverges⟩

namespace Trie.Subtree

/-- A key found below a node goes along the label of the node. -/
theorem label_prefix_of_find? {t : Subtree} {k : Bits} {values : List ValueEntry}
    (h : t.find? k = some values) : t ≠ vacant ∧ t.label <+: k := by
  constructor
  · rintro rfl
    cases h
  · by_contra hp
    rw [find?_eq_none_of_leaves hp] at h
    cases h

section

variable {root : Subtree} {n : Nat} {hash : Hash} {key : Bits} {values : List ValueEntry}
  {proof : NonMembershipProof}

theorem verify_of_mislabels (hroot : Rooted n root) (hhash : root.hash? = some hash) {side : UInt8}
    {node : Subtree} {more : Bits} (h : proof.MislabelsFrontier root key side node more) :
    proof.verify key hash = .ok () := by
  obtain ⟨hbelow, hkey, ⟨hnode, -⟩, hfrontier, hhead, hleaves⟩ := h
  have hfold := fold_below hbelow hroot
  rw [← hfrontier, hhash] at hfold
  refine NonMembershipProof.verify_eq_ok_iff.2 ⟨side, more, hhead, hkey, ?_, hfold⟩
  rw [NonMembershipProof.diverges, hfrontier]
  cases hn : node.hash? with
  | none =>
    cases node with
    | vacant => exact absurd rfl hnode
    | leaf => cases hn
    | branch => cases hn
  | some h =>
    have hnot : proof.frontierLabel.isPrefixOf (side :: more) = false :=
      Bool.eq_false_iff.2 fun hp => hleaves (List.isPrefixOf_iff_prefix.1 hp)
    simp only [hnot, Bool.not_false]

theorem mislabels_of_verify (hroot : Rooted n root) (hhash : root.hash? = some hash)
    (hkey : key.WellFormed) (hfind : root.find? key = some values)
    (hverify : proof.verify key hash = .ok ()) :
    (∃ side node more, proof.MislabelsFrontier root key side node more) ∨
      Collision (root.preimages ++ proof.preimages key) := by
  obtain ⟨side, more, hhead, rfl, hdiverges, hfold⟩ :=
    NonMembershipProof.verify_eq_ok_iff.1 hverify
  rcases below_of_fold hroot hhash (List.subset_append_left _ _) hfold
    (fun s hs => List.mem_append_right _ (proof.preimages_of_verify hhead hdiverges ▸ hs)) with
    ⟨b, t, hbelow, hfrontier, hside⟩ | hcol
  · left
    have hb : side = b := by
      rcases (Bits.WellFormed.append_iff.1 hkey).2.head with rfl | rfl <;>
        rcases hbelow.side_cases with rfl | rfl <;> simp_all
    subst hb
    rw [hbelow.find? hroot] at hfind
    have hthrough := label_prefix_of_find? hfind
    refine ⟨side, t, more, hbelow, rfl, hthrough, hfrontier, hhead, fun hp => ?_⟩
    rw [NonMembershipProof.diverges, List.isPrefixOf_iff_prefix.2 hp, hfrontier] at hdiverges
    cases t with
    | vacant => exact hthrough.1 rfl
    | leaf => cases hdiverges
    | branch => cases hdiverges
  · exact .inr hcol

end

end Trie.Subtree

namespace PrefixTrie

open Subtree

/-- **What a non-membership proof can hide.**  A proof verifies for a key that was inserted exactly
if it mislabels a node on the way to the key, unless two of the strings hashed collide.  So a proof
whose frontier carries the label of its node is refused. -/
theorem nonMembership_of_held_iff (keyLength : Option Nat) (inserts : List Insertion)
    (hbits : ∀ insertion ∈ inserts, insertion.1.WellFormed) (key : Bits)
    (hheld : key ∈ ((empty keyLength).accepted inserts).map Prod.fst) (proof : NonMembershipProof) :
    (proof.verify key ((empty keyLength).insertAll inserts).rootHash = .ok () ↔
      ∃ side node more, proof.MislabelsFrontier ((empty keyLength).insertAll inserts).root key
        side node more) ∨
      Collision (((empty keyLength).insertAll inserts).root.preimages ++ proof.preimages key) := by
  have h := reached_insertAll keyLength hbits
  have hkey : key.WellFormed := by
    obtain ⟨insertion, hmem, rfl⟩ := List.mem_map.1 hheld
    exact hbits _ ((accepted_sublist _ _).subset hmem)
  have hsome : ∃ values, held? key ((empty keyLength).accepted inserts) = some values := by
    rw [← Option.isSome_iff_exists, ← Option.not_isNone, isNone_held?]
    simpa using hheld
  generalize (empty keyLength).insertAll inserts = trie at h ⊢
  have hroot := h.rooted (trie.keyLength.getD 0) (by simp +contextual)
  obtain ⟨values, hvalues⟩ := hsome
  rw [← h.find] at hvalues
  by_cases hcol : Collision (trie.root.preimages ++ proof.preimages key)
  · exact .inr hcol
  · left
    constructor
    · intro hverify
      exact (mislabels_of_verify hroot h.hash?_root hkey hvalues hverify).resolve_right hcol
    · rintro ⟨side, node, more, hmis⟩
      exact verify_of_mislabels hroot h.hash?_root hmis

/-- Three keys; the leaf of the first passes for a node labelled `01` on its own way. -/
theorem nonMembership_of_held_iff_three_keys :
    let inserts : List Insertion :=
      [([0, 0, 0], ⟨Hash.zero, 0⟩), ([1, 0, 1], ⟨Hash.zero, 1⟩), ([1, 1, 1], ⟨Hash.zero, 2⟩)]
    let trie := (empty (some 3)).insertAll inserts
    let proof : NonMembershipProof :=
      ⟨some (leafHash [0, 0, 0] [⟨Hash.zero, 0⟩]), [0, 1], [⟨[], (trie.root.child 1).hash?⟩]⟩
    (∀ insertion ∈ inserts, insertion.1.WellFormed) ∧
      [0, 0, 0] ∈ ((empty (some 3)).accepted inserts).map Prod.fst ∧
      ((proof.verify [0, 0, 0] trie.rootHash = .ok () ↔
        ∃ side node more, proof.MislabelsFrontier trie.root [0, 0, 0] side node more) ∨
        Collision (trie.root.preimages ++ proof.preimages [0, 0, 0])) := by
  intro inserts trie proof
  have hbits : ∀ insertion ∈ inserts, insertion.1.WellFormed := by decide
  have hheld : [0, 0, 0] ∈ ((empty (some 3)).accepted inserts).map Prod.fst := by decide +kernel
  exact ⟨hbits, hheld, nonMembership_of_held_iff (some 3) inserts hbits [0, 0, 0] hheld proof⟩

/-- A key that is held, a proof of its absence that verifies, and no collision. -/
theorem nonMembership_verifies_for_held_key :
    let entry : ValueEntry := ⟨Hash.digest (Bytes.ofString "a"), 0⟩
    let trie := (empty none).insertAll [([0, 0, 0], entry)]
    let proof : NonMembershipProof := ⟨some (leafHash [0, 0, 0] [entry]), [0, 1], [⟨[], none⟩]⟩
    trie.get? [0, 0, 0] = .ok (some [entry]) ∧
      proof.verify [0, 0, 0] trie.rootHash = .ok () ∧
      ¬ Collision (trie.root.preimages ++ proof.preimages [0, 0, 0]) := by
  decide +kernel

end PrefixTrie

end KeyTransparency
