import KeyTransparency.Proofs.Partition.Digest
import KeyTransparency.Proofs.Partition.Named
import KeyTransparency.Proofs.Trie.Soundness
import KeyTransparency.Proofs.Validation

/-!
# What an accepted claim says about the partition

`Ledger.preimages` and `Claim.preimages` are the byte strings hashed for the named tries and their
values, and in the validation.  Unless two of them collide, the entry of an accepted claim is in one of
the named tries, and each later trie either does not hold the key or is hidden by a proof that
mislabels its frontier:

    claim.Accepted … → claim.HeldBy …, or a collision                             (Accepted.heldBy)
    operate … = ok (p, events) → claim.validate … = ok → claim.HeldBy …, or a collision
                                                                          (Partition.heldBy_of_run)
-/

namespace KeyTransparency

open Trie Subtree

/-! ## Hashed strings -/

/-- What checking a proof hashes. -/
def LookupProof.preimages (key : Bits) : LookupProof → List Bytes
  | member proof values => proof.preimages key values
  | nonMember proof => proof.preimages key

def Publication.preimage (made : Publication) : Bytes :=
  contentPreimage made.identifier made.value made.signature made.position

def Claim.preimage (claim : Claim) : Bytes :=
  contentPreimage claim.identifier claim.value claim.signature claim.position

/-- What is hashed for the values published and for the nodes of the named tries. -/
def Ledger.preimages (ledger : Ledger) (aggregated : Bool) : List Bytes :=
  ledger.publications.map Publication.preimage ++
    (ledger.named aggregated).flatMap fun insertions => (trieOver insertions).root.preimages

/-- What a validation hashes that accepts the claim. -/
def Claim.preimages (claim : Claim) (proof : ExistenceProof) : List Bytes :=
  claim.preimage :: proof.all.flatMap (LookupProof.preimages claim.key)

/-! ## Single proofs -/

section

variable {insertions : List Insertion} {key : Bits} {strings : List Bytes}

theorem find?_trieOver (hkeys : ∀ insertion ∈ insertions, insertion.1.IsKey) (key : Bits) :
    (trieOver insertions).root.find? key = held? key insertions :=
  (reached_trieOver hkeys).find key

theorem rooted_trieOver (hkeys : ∀ insertion ∈ insertions, insertion.1.IsKey) :
    Rooted keyBits (trieOver insertions).root :=
  (reached_trieOver hkeys).rooted keyBits fun n hn => by
    rw [trieOver, PrefixTrie.keyLength_insertAll rfl] at hn
    exact (Option.some.inj hn).symm

/-- A verified proof that shows a value shows what the trie holds under the key. -/
theorem LookupProof.values_of_verify (hkeys : ∀ insertion ∈ insertions, insertion.1.IsKey)
    (hfit : 40 * insertions.length < UInt64.size) {found : LookupProof}
    (hverify : found.verify key (trieOver insertions).rootHash = .ok ()) {entry : ValueEntry}
    (hentry : entry ∈ found.values) (hfree : ¬ Collision strings)
    (htrie : (trieOver insertions).root.preimages ⊆ strings) (hfound : found.preimages key ⊆ strings) :
    entry ∈ entriesUnder key insertions := by
  cases found with
  | nonMember forged => cases hentry
  | member proof values =>
    have hshort : ∀ k vs, (trieOver insertions).root.find? k = some vs →
        k.length < UInt64.size ∧ 40 * vs.length < UInt64.size := by
      intro k vs hk
      rw [find?_trieOver hkeys] at hk
      obtain ⟨⟨entry, hmem⟩, rfl⟩ := PrefixTrie.mem_of_held? hk
      have hle : (entriesUnder k insertions).length ≤ insertions.length := by
        rw [entriesUnder, List.length_map]
        exact List.length_filter_le _ _
      rw [(hkeys _ hmem).length_eq]
      exact ⟨by decide, by omega⟩
    rcases find?_of_verify (rooted_trieOver hkeys) (reached_trieOver hkeys).hash?_root hverify hshort with
      ⟨hfind, -⟩ | hcol
    · rw [find?_trieOver hkeys] at hfind
      rw [← (PrefixTrie.mem_of_held? hfind).2]
      exact hentry
    · exact absurd (hcol.mono (List.append_subset.2 ⟨htrie, hfound⟩)) hfree

/-- A verified proof of absence is about a key that the trie does not hold, or mislabels its
frontier. -/
theorem NonMembershipProof.absent_or_mislabels (hkeys : ∀ insertion ∈ insertions, insertion.1.IsKey)
    (hkey : key.WellFormed) {forged : NonMembershipProof}
    (hverify : forged.verify key (trieOver insertions).rootHash = .ok ())
    (hfree : ¬ Collision strings) (htrie : (trieOver insertions).root.preimages ⊆ strings)
    (hforged : forged.preimages key ⊆ strings) :
    entriesUnder key insertions = [] ∨
      ∃ side node more, forged.MislabelsFrontier (trieOver insertions).root key side node more := by
  by_cases hnil : entriesUnder key insertions = []
  · exact .inl hnil
  · right
    have hfind : (trieOver insertions).root.find? key = some (entriesUnder key insertions) := by
      rw [find?_trieOver hkeys, held?, if_neg hnil]
    rcases mislabels_of_verify (rooted_trieOver hkeys) (reached_trieOver hkeys).hash?_root hkey hfind
      hverify with hmislabels | hcol
    · exact hmislabels
    · exact absurd (hcol.mono (List.append_subset.2 ⟨htrie, hforged⟩)) hfree

end

/-! ## Accepted claims -/

namespace Claim

/-- Trie number `i` of those named holds the claimed entry, and each later one, which is an update
trie, either does not hold the key or is hidden by a proof of absence that mislabels its frontier. -/
structure HeldBy (claim : Claim) (named : List (List Insertion)) (proof : ExistenceProof) (i : Nat) :
    Prop where
  held : ∃ insertions, named[i]? = some insertions ∧
    claim.leafEntry ∈ entriesUnder claim.key insertions
  base_le : proof.base.length ≤ i + 1
  later : ∀ j insertions, i < j → named[j]? = some insertions →
    entriesUnder claim.key insertions = [] ∨
      ∃ forged side node more, proof.all[j]? = some (.nonMember forged) ∧
        forged.MislabelsFrontier (trieOver insertions).root claim.key side node more

variable {scheme : SignatureScheme} {ledger : Ledger} {aggregated : Bool} {depth : Nat}
  {proof : ExistenceProof} {claim : Claim}

theorem isKey_key (claim : Claim) : claim.key.IsKey := Bits.isKey_ofIdentifier claim.identifier

/-- **The entry of an accepted claim is in the newest named trie that shows the key.** -/
theorem Accepted.heldBy (h : claim.Accepted scheme (ledger.digest aggregated depth) proof)
    (hperiod : 2 ≤ ledger.period)
    (hroom : aggregated = true → ledger.period - 1 ≤ HistoryForest.capacityOf depth)
    (hfit : 40 * ledger.publications.length < UInt64.size)
    (hfree : ¬ Collision (ledger.preimages aggregated ++ claim.preimages proof)) :
    ∃ i, claim.HeldBy (ledger.named aggregated) proof i := by
  have hverified := h.verified
  rw [Ledger.roots_digest hperiod hroom, List.forall₂_map_right_iff] at hverified
  have htrie : ∀ insertions ∈ ledger.named aggregated, (trieOver insertions).root.preimages ⊆
      ledger.preimages aggregated ++ claim.preimages proof := by
    intro insertions hmem s hs
    apply List.mem_append_left
    apply List.mem_append_right
    exact List.mem_flatMap.2 ⟨insertions, hmem, hs⟩
  have hproof : ∀ found ∈ proof.all, found.preimages claim.key ⊆
      ledger.preimages aggregated ++ claim.preimages proof := by
    intro found hmem s hs
    apply List.mem_append_right
    apply List.mem_cons_of_mem
    exact List.mem_flatMap.2 ⟨found, hmem, hs⟩
  obtain ⟨i, found, hget, hentry, hbase, hlater⟩ := h.exists_newest
  refine ⟨i, ?_, hbase, ?_⟩
  · obtain ⟨insertions, hnamed, hverify⟩ := getElem?_of_forall₂ hverified.flip hget
    have hmem := List.mem_of_getElem? hnamed
    have hlength := Ledger.length_le_of_mem_named hmem
    exact ⟨insertions, hnamed, LookupProof.values_of_verify (fun _ => Ledger.isKey_of_mem_named hmem)
      (by omega) hverify hentry hfree (htrie _ hmem) (hproof _ (List.mem_of_getElem? hget))⟩
  · intro j insertions hj hnamed
    obtain ⟨later, hget, hverify⟩ := getElem?_of_forall₂ hverified hnamed
    have hmem := List.mem_of_getElem? hnamed
    cases later with
    | member => cases hlater j _ hj hget
    | nonMember forged =>
      rcases NonMembershipProof.absent_or_mislabels (fun _ => Ledger.isKey_of_mem_named hmem)
        claim.isKey_key.wellFormed hverify hfree (htrie _ hmem) (hproof _ (List.mem_of_getElem? hget)) with
        habsent | ⟨side, node, more, hmislabels⟩
      · exact .inl habsent
      · exact .inr ⟨forged, side, node, more, hget, hmislabels⟩

end Claim

/-! ## Runs -/

namespace Partition

/-- The entry of a claim that validates after a run is in the newest named trie that shows the key. -/
theorem heldBy_of_run {aggregated : Bool} {depth : Nat} {operations : List Operation}
    (hcount : 40 * operations.length < UInt64.size) {p : Partition} {events : List Event}
    (hrun : operate aggregated depth operations = .ok (p, events)) {digest : Digest}
    (hdigest : p.digest = .ok digest) {scheme : SignatureScheme} {proof : ExistenceProof} {claim : Claim}
    (hvalid : claim.validate scheme digest proof = .ok ())
    (hfree : ¬ Collision ((Ledger.ofEvents events).preimages aggregated ++ claim.preimages proof)) :
    ∃ i, claim.HeldBy ((Ledger.ofEvents events).named aggregated) proof i := by
  obtain ⟨hsub, h⟩ := reflects_of_operate hrun
  have hperiod := Ledger.two_le_period events
  have hpublished : digest = (Ledger.ofEvents events).digest aggregated depth :=
    Except.ok.inj (hdigest.symm.trans (h.digest_eq hperiod))
  have haccepted := Claim.accepted_of_validate hvalid
  rw [hpublished] at haccepted
  -- a run publishes no more values than it has operations
  have hsize := Ledger.size_ofEvents_le hsub
  apply haccepted.heldBy hperiod h.room _ hfree
  omega

end Partition

end KeyTransparency
