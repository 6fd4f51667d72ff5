import KeyTransparency.Crypto.Ed25519
import KeyTransparency.Proofs.Partition.Binding

/-!
# Only what was published is accepted

A claim that validates against the digest of a partition, with whatever proofs, was published there
under its identifier, with its value and signature and at its position, and has settled or is in an
update trie that serves proofs (`authentic_of_validate`).
-/

namespace KeyTransparency

open Trie

namespace Partition

/-- The number of bytes published. -/
def Operation.size : Operation → Nat
  | .append identifier value signature => identifier.length + value.length + signature.length
  | .sealUpdates => 0
  | .advance => 0

/-- So few operations, on values so small, that eight bytes can measure what is hashed of them. -/
def Operation.Fit (operations : List Operation) : Prop :=
  40 * operations.length < UInt64.size ∧ ∀ operation ∈ operations, operation.size < UInt64.size

instance (operations : List Operation) : Decidable (Operation.Fit operations) :=
  inferInstanceAs (Decidable (_ ∧ ∀ operation ∈ operations, _))

end Partition

namespace Claim

variable {claim : Claim} {ledger : Ledger} {aggregated : Bool} {proof : ExistenceProof}

/-- A publication whose leaf entry is the claimed one is the claimed one. -/
theorem eq_of_entry_eq {made : Publication} (hmade : made ∈ ledger.publications)
    (hfit : made.identifier.length + made.value.length + made.signature.length < UInt64.size)
    (hfree : ¬ Collision (ledger.preimages aggregated ++ claim.preimages proof))
    (h : made.entry = claim.leafEntry) :
    made.identifier = claim.identifier ∧ made.value = claim.value ∧
      made.signature = claim.signature ∧ made.position = claim.position := by
  have hmadeString : made.preimage ∈ ledger.preimages aggregated ++ claim.preimages proof := by
    apply List.mem_append_left
    apply List.mem_append_left
    exact List.mem_map_of_mem hmade
  have hclaimString : claim.preimage ∈ ledger.preimages aggregated ++ claim.preimages proof := by
    apply List.mem_append_right
    exact List.mem_cons_self
  have hhash : Hash.digest made.preimage = Hash.digest claim.preimage := congrArg ValueEntry.hash h
  exact contentPreimage_inj hfit (eq_of_digest_eq hfree hmadeString hclaimString hhash)

end Claim

namespace Partition

/-- **Accepted claims are authentic.**  What validates against the digest of a partition was published
there as claimed, and its signature verifies, unless two of the strings hashed for the digest and in the
validation collide. -/
theorem authentic_of_validate (aggregated : Bool) (depth : Nat) (operations : List Operation)
    (hfit : Operation.Fit operations) {p : Partition} {events : List Event}
    (hrun : operate aggregated depth operations = .ok (p, events)) {digest : Digest}
    (hdigest : p.digest = .ok digest) (scheme : SignatureScheme) (proof : ExistenceProof) (claim : Claim)
    (hvalid : claim.validate scheme digest proof = .ok ()) :
    let ledger := Ledger.ofEvents events
    claim.verifySignature scheme = .ok () ∧
      ((∃ made ∈ ledger.publications, made.identifier = claim.identifier ∧
          made.value = claim.value ∧ made.signature = claim.signature ∧ made.position = claim.position ∧
          (made.period ≤ ledger.period - 2 ∨ ∃ sealing ∈ ledger.sealingsSince (ledger.period - 1),
            sealing.updateEpoch = made.updateEpoch)) ∨
        Collision (ledger.preimages aggregated ++ claim.preimages proof)) := by
  intro ledger
  constructor
  · exact (Claim.accepted_of_validate hvalid).signature
  by_cases hcol : Collision (ledger.preimages aggregated ++ claim.preimages proof)
  · right
    exact hcol
  · left
    obtain ⟨i, ⟨insertions, hnamed, hentry⟩, -⟩ := heldBy_of_run hfit.1 hrun hdigest hvalid hcol
    obtain ⟨⟨key, entry⟩, hinsertion, hclaimed⟩ := List.mem_map.1 hentry
    -- the entry was inserted for a publication, which was an event of the run
    obtain ⟨made, hmade, hmadeInsertion, hwhere⟩ := Ledger.exists_publication
      (Ledger.two_le_period events) (List.mem_of_getElem? hnamed) (List.mem_filter.1 hinsertion).1
    obtain ⟨hsub, -⟩ := reflects_of_operate hrun
    have hoperation := hsub.subset (List.mem_map_of_mem (Ledger.mem_events_of_mem_publications hmade))
    obtain ⟨hidentifier, hvalue, hsignature, hposition⟩ := Claim.eq_of_entry_eq hmade
      (hfit.2 _ hoperation) hcol ((congrArg Prod.snd hmadeInsertion).trans hclaimed)
    exact ⟨made, hmade, hidentifier, hvalue, hsignature, hposition, hwhere⟩

/-- A signed value that has been sealed is accepted. -/
theorem authentic_of_validate_signed_value :
    let operations : List Operation := [.append [1] [2] Owner.firstSignature, .sealUpdates]
    let claim : Claim := ⟨[1], [2], Owner.firstSignature, 0, Owner.key, .publicKey⟩
    let scheme := Ed25519.scheme.toSignatureScheme
    Operation.Fit operations ∧
      ∃ p events digest proof, operate false 0 operations = .ok (p, events) ∧
        p.digest = .ok digest ∧ claim.validate scheme digest proof = .ok () ∧
        claim.verifySignature scheme = .ok () ∧
        ((∃ made ∈ (Ledger.ofEvents events).publications, made.identifier = [1] ∧ made.value = [2] ∧
            made.signature = Owner.firstSignature ∧ made.position = 0) ∨
          Collision ((Ledger.ofEvents events).preimages false ++ claim.preimages proof)) := by
  intro operations claim scheme
  have hfit : Operation.Fit operations := by decide +kernel
  have haccepted : (do
      let last ← operate false 0 operations
      let digest ← last.1.digest
      let proof ← last.1.existenceProof claim.identifier
      claim.validate scheme digest proof) = .ok () := by
    decide +kernel
  obtain ⟨⟨p, events⟩, hrun, haccepted⟩ := bind_eq_ok_iff.1 haccepted
  obtain ⟨digest, hdigest, haccepted⟩ := bind_eq_ok_iff.1 haccepted
  obtain ⟨proof, -, hvalid⟩ := bind_eq_ok_iff.1 haccepted
  obtain ⟨hsignature, hmade⟩ :=
    authentic_of_validate false 0 operations hfit hrun hdigest scheme proof claim hvalid
  refine ⟨hfit, p, events, digest, proof, hrun, hdigest, hvalid, hsignature, hmade.imp_left ?_⟩
  rintro ⟨made, hmade, hidentifier, hvalue, hsignature, hposition, -⟩
  exact ⟨made, hmade, hidentifier, hvalue, hsignature, hposition⟩

end Partition

end KeyTransparency
