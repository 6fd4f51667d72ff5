import KeyTransparency.Crypto.Ed25519
import KeyTransparency.Proofs.Partition.Binding

/-!
# How fresh an accepted claim is

The entry of an accepted claim is in the newest of the named tries that holds the key (`Claim.Fresh`),
unless an update trie that holds the key as well is hidden by a proof of absence whose frontier carries
a label of its own (`freshness_of_validate`).  Nothing hashes that label, so such a proof can be made of
a proof of membership (`MembershipProof.disguise`), and hides a newer entry (`outdated_value_validates`).
-/

namespace KeyTransparency

open Trie

/-- A proof of absence that is the proof of membership but for a label that goes on behind the leaf. -/
def MembershipProof.disguise (proof : MembershipProof) (values : List ValueEntry) :
    NonMembershipProof :=
  ⟨some (leafHash proof.leafLabel values), proof.leafLabel ++ [0], proof.copath⟩

/-- Hides the update tries from the second one on. -/
def ExistenceProof.hideLater (proof : ExistenceProof) : ExistenceProof :=
  ⟨proof.base, proof.updates.take 1 ++ (proof.updates.drop 1).map fun found =>
    match found with
    | .member proof values => .nonMember (proof.disguise values)
    | .nonMember proof => .nonMember proof⟩

namespace Claim

/-- The claimed entry is in the newest of the named tries that holds the key. -/
def Fresh (claim : Claim) (named : List (List Insertion)) : Prop :=
  ∃ newest ∈ named.reverse.find? (fun insertions => entriesUnder claim.key insertions ≠ []),
    claim.leafEntry ∈ entriesUnder claim.key newest

instance (claim : Claim) (named : List (List Insertion)) : Decidable (claim.Fresh named) :=
  inferInstanceAs (Decidable (∃ newest ∈ List.find? _ _, _))

end Claim

namespace Partition

/-- **How fresh accepted claims are.**  After every run with so few operations that eight bytes can
measure what is hashed for a leaf, what validates against the digest is in one of the named tries such
that every later one is an update trie and either does not hold the key or is hidden by a proof that
mislabels its frontier, unless two of the strings hashed for the digest and in the validation
collide. -/
theorem freshness_of_validate (aggregated : Bool) (depth : Nat) (operations : List Operation)
    (hcount : 40 * operations.length < UInt64.size) {p : Partition} {events : List Event}
    (hrun : operate aggregated depth operations = .ok (p, events)) {digest : Digest}
    (hdigest : p.digest = .ok digest) (scheme : SignatureScheme) (proof : ExistenceProof) (claim : Claim)
    (hvalid : claim.validate scheme digest proof = .ok ()) :
    let ledger := Ledger.ofEvents events
    (∃ i, claim.HeldBy (ledger.named aggregated) proof i) ∨
      Collision (ledger.preimages aggregated ++ claim.preimages proof) := by
  intro ledger
  by_cases hcol : Collision (ledger.preimages aggregated ++ claim.preimages proof)
  · right
    exact hcol
  · left
    exact heldBy_of_run hcount hrun hdigest hvalid hcol

/-! ## A value that is outdated -/

namespace Outdated

open Owner

/-- Two values of one identifier, each sealed in an update trie of its own. -/
def operations : List Operation :=
  [.append [1] [2] firstSignature, .sealUpdates, .append [1] [3] secondSignature, .sealUpdates]

/-- The first value, which the second has replaced. -/
def claim : Claim := ⟨[1], [2], firstSignature, 0, key, .publicKey⟩

/-- The partition and its digest, and its proofs with the second update trie hidden. -/
def attack : Except Error ((Partition × List Event) × Digest × ExistenceProof) := do
  let (p, events) ← operate false 0 operations
  let digest ← p.digest
  let proof ← p.existenceProof claim.identifier
  pure ((p, events), digest, proof.hideLater)

theorem operate_of_attack {p : Partition} {events : List Event} {digest : Digest}
    {proof : ExistenceProof} (h : attack = .ok ((p, events), digest, proof)) :
    operate false 0 operations = .ok (p, events) ∧ p.digest = .ok digest := by
  obtain ⟨⟨last, all⟩, hrun, h⟩ := bind_eq_ok_iff.1 h
  obtain ⟨published, hdigest, h⟩ := bind_eq_ok_iff.1 h
  obtain ⟨honest, -, h⟩ := bind_eq_ok_iff.1 h
  cases h
  exact ⟨hrun, hdigest⟩

/-- The attack as one evaluation: the validator accepts the outdated value, and no hash is met twice. -/
theorem attack_accepted :
    (do
      let ((_, events), digest, proof) ← attack
      claim.validate Ed25519.scheme.toSignatureScheme digest proof
      let strings := (Ledger.ofEvents events).preimages false ++ claim.preimages proof
      pure (decide (¬ claim.Fresh ((Ledger.ofEvents events).named false) ∧
        (strings.dedup.map Hash.digest).Nodup))) = .ok true := by
  decide +kernel

end Outdated

open Outdated

/-- The attack has an entry in the first update trie, and hides the second. -/
theorem freshness_of_validate_hidden_trie :
    let scheme := Ed25519.scheme.toSignatureScheme
    40 * operations.length < UInt64.size ∧
      ∃ p events digest proof, operate false 0 operations = .ok (p, events) ∧
        p.digest = .ok digest ∧ claim.validate scheme digest proof = .ok () ∧
        ((∃ i, claim.HeldBy ((Ledger.ofEvents events).named false) proof i) ∨
          Collision ((Ledger.ofEvents events).preimages false ++ claim.preimages proof)) := by
  intro scheme
  have hcount : 40 * operations.length < UInt64.size := by decide
  obtain ⟨⟨⟨p, events⟩, digest, proof⟩, hattack, h⟩ := bind_eq_ok_iff.1 attack_accepted
  obtain ⟨hrun, hdigest⟩ := operate_of_attack hattack
  obtain ⟨_, hvalid, -⟩ := bind_eq_ok_iff.1 h
  exact ⟨hcount, p, events, digest, proof, hrun, hdigest, hvalid,
    freshness_of_validate false 0 operations hcount hrun hdigest scheme proof claim hvalid⟩

/-- A value is accepted after a later update trie has published another one, without a collision. -/
theorem outdated_value_validates :
    ∃ p events digest proof, operate false 0 operations = .ok (p, events) ∧ p.digest = .ok digest ∧
      claim.validate Ed25519.scheme.toSignatureScheme digest proof = .ok () ∧
      ¬ claim.Fresh ((Ledger.ofEvents events).named false) ∧
      ¬ Collision ((Ledger.ofEvents events).preimages false ++ claim.preimages proof) := by
  obtain ⟨⟨⟨p, events⟩, digest, proof⟩, hattack, h⟩ := bind_eq_ok_iff.1 attack_accepted
  obtain ⟨hrun, hdigest⟩ := operate_of_attack hattack
  obtain ⟨_, hvalid, hnew⟩ := bind_eq_ok_iff.1 h
  obtain ⟨hstale, hnodup⟩ := of_decide_eq_true (Except.ok.inj hnew)
  exact ⟨p, events, digest, proof, hrun, hdigest, hvalid, hstale, not_collision_of_nodup hnodup⟩

end Partition

end KeyTransparency
