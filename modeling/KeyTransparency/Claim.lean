import KeyTransparency.Partition.Digest
import KeyTransparency.Signature

/-!
What a client checks.

A client trusts a digest and nothing else.  A claim says that a value was published under an
identifier; it is accepted if every proof holds against the root that the digest names for it, the
claimed entry is in the newest leaf that the proofs show, and the owner's signature verifies.  The
error says which sub-proof failed.
-/

namespace KeyTransparency

inductive ClaimKind
  /-- Signed by itself. -/
  | masterKey
  /-- Signed, together with its position, by the master key. -/
  | publicKey
deriving DecidableEq, Repr

structure Claim where
  identifier : Bytes
  value : Bytes
  signature : Bytes
  position : UInt64
  verifyingKey : Bytes
  kind : ClaimKind
deriving DecidableEq

namespace Claim

variable (scheme : SignatureScheme)

def publicKey (identifier value signature : Bytes) (position : UInt64) (verifyingKey : Bytes) :
    Except Error Claim := do
  scheme.checkKey verifyingKey
  pure ⟨identifier, value, signature, position, verifyingKey, .publicKey⟩

def masterKey (username value signature : Bytes) (position : UInt64) : Except Error Claim := do
  scheme.checkKey value
  pure ⟨masterKeyIdentifier username, value, signature, position, value, .masterKey⟩

def key (claim : Claim) : Bits := Bits.ofIdentifier claim.identifier

/-- The entry that the leaf must hold. -/
def leafEntry (claim : Claim) : ValueEntry :=
  ⟨contentHash claim.identifier claim.value claim.signature claim.position, claim.position⟩

/-- What the owner has signed. -/
def message (claim : Claim) : Bytes :=
  match claim.kind with
  | .masterKey => claim.value
  | .publicKey => signedPayload claim.value claim.position

def verifySignature (claim : Claim) : Except Error Unit :=
  scheme.verify claim.verifyingKey claim.message claim.signature

end Claim

/-! ## Validation -/

namespace Validation

/-- The newest membership proof so far and where it stands. -/
abbrev Latest := Option (ProofSource × LookupProof)

/-- Checks base proofs in the order of their periods: once present, the key must stay present. -/
def checkSnapshots (key : Bits) : (index : Nat) → List (LookupProof × Hash) → Latest →
    Except Error Latest
  | _, [], latest => .ok latest
  | i, (proof, root) :: rest, latest =>
    match proof.verify key root with
    | .error e => .error (e.attributeTo (.baseTrie i))
    | .ok () =>
      if proof.isMember then checkSnapshots key (i + 1) rest (some (.baseTrie i, proof))
      else if latest.isSome then .error (.proofInvalid (.baseTrie i) .keyDisappeared)
      else checkSnapshots key (i + 1) rest latest

def checkBase (roots : List Hash) (proofs : List LookupProof) (key : Bits) : Except Error Latest :=
  if proofs.length ≠ roots.length then
    .error (.proofInvalid (.baseTrie proofs.length) (.baseProofCount proofs.length roots.length))
  else checkSnapshots key 0 (proofs.zip roots) none

/-- Checks update proofs, oldest first; a membership takes the place of earlier ones. -/
def checkUpdateTries (key : Bits) : (index : Nat) → List (LookupProof × Hash) → Latest →
    Except Error Latest
  | _, [], latest => .ok latest
  | i, (proof, root) :: rest, latest =>
    match proof.verify key root with
    | .error e => .error (e.attributeTo (.updateTrie i))
    | .ok () =>
      checkUpdateTries key (i + 1) rest
        (if proof.isMember then some (.updateTrie i, proof) else latest)

def checkUpdates (roots : List Hash) (proofs : List LookupProof) (key : Bits) (latest : Latest) :
    Except Error Latest :=
  if proofs.length ≠ roots.length then
    .error (.proofInvalid (.updateTrie proofs.length) (.updateProofCount proofs.length roots.length))
  else checkUpdateTries key 0 (proofs.zip roots) latest

def checkClaim (scheme : SignatureScheme) (claim : Claim) : Latest → Except Error Unit
  | none => .error (.proofInvalid (.baseTrie 0) .noMembership)
  | some (part, proof) =>
    if claim.leafEntry ∈ proof.values then claim.verifySignature scheme
    else .error (.proofInvalid part .valueNotInLeaf)

end Validation

namespace Claim

open Validation

variable (scheme : SignatureScheme)

/-- Checks base proofs against the given snapshots and then the update tries. -/
def validateAgainst (roots : List Hash) (digest : Digest) (proof : ExistenceProof) (claim : Claim) :
    Except Error Unit := do
  let latest ← checkBase roots proof.base claim.key
  let latest ← checkUpdates digest.updateRoots proof.updates claim.key latest
  checkClaim scheme claim latest

/-- Validates against the one settled snapshot. -/
def validateWindow (digest : Digest) (proof : ExistenceProof) (claim : Claim) : Except Error Unit :=
  claim.validateAgainst scheme [digest.settledRoot] digest proof

/-- Validates against the snapshots of the history roots. -/
def validateHistory (digest : Digest) (proof : ExistenceProof) (claim : Claim) :
    Except Error Unit :=
  match digest.history with
  | none => .error (.proofInvalid .history .noHistoryRoots)
  | some _ => claim.validateAgainst scheme digest.baseRoots digest proof

/-- Validates against whichever snapshots the digest has. -/
def validate (digest : Digest) (proof : ExistenceProof) (claim : Claim) : Except Error Unit :=
  if digest.history.isSome then claim.validateHistory scheme digest proof
  else claim.validateWindow scheme digest proof

/-- Checks the settled snapshots alone, as an owner does who watches their own key: it must be
present and must never vanish. -/
def validateMonitoring (digest : Digest) (proof : ExistenceProof) (claim : Claim) :
    Except Error Unit := do
  let latest ← checkBase digest.baseRoots proof.base claim.key
  checkClaim scheme claim latest

end Claim

end KeyTransparency
