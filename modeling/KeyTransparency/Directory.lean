import KeyTransparency.Claim
import KeyTransparency.Config
import KeyTransparency.Partition.Basic
import KeyTransparency.Storage.Basic
import KeyTransparency.Text.Utf8

/-!
A directory: partitions that identifiers are spread over by their hash, and a store for the values.

A user registers a master key once and then publishes public keys signed by it.  Each request reads
and changes one partition and the store together; the parts of a request between which other requests
may run are functions of their own (`verifyingKeyOf` and `publish`, `sealedPositionOf` and
`publicKeyBelow`, `sealPartition`, `advancePartition`).  A request that fails answers the error
together with the directory it leaves behind.
-/

namespace KeyTransparency

structure Directory (σ : Type) where
  partitions : Array Partition
  store : σ

/-- A value that the current digest proves, with what a client needs to check it. -/
structure Lookup where
  record : ValueRecord
  partition : Nat
  digest : Digest
  proof : ExistenceProof

namespace Directory

variable {σ : Type}

def new (config : Config) (store : σ) : Except Error (Directory σ) := do
  config.validate
  let partition ← Partition.create config.aggregatedHistory config.historyDepth
  pure ⟨Array.replicate config.partitions partition, store⟩

/-! ## Partitions -/

/-- The partition an identifier belongs to. -/
def partitionFor (dir : Directory σ) (identifier : Bytes) : Nat :=
  Bytes.ofBigEndian ((Hash.ofParts .identifier [identifier]).bytes.take 8) % dir.partitions.size

def partitionAt (dir : Directory σ) (index : Nat) : Except Error Partition :=
  match dir.partitions[index]? with
  | some partition => .ok partition
  | none => .error (.keyNotFound s!"partition {index}")

def partitionOf (dir : Directory σ) (identifier : Bytes) : Except Error Partition :=
  dir.partitionAt (dir.partitionFor identifier)

def setPartition (dir : Directory σ) (index : Nat) (partition : Partition) : Directory σ :=
  { dir with partitions := dir.partitions.setIfInBounds index partition }

/-- The position the next append under an identifier takes. -/
def nextPosition (dir : Directory σ) (identifier : Bytes) : Except Error UInt64 :=
  (dir.partitionOf identifier).map Partition.nextPosition

def sealedPositionOf (dir : Directory σ) (identifier : Bytes) : Except Error UInt64 :=
  (dir.partitionOf identifier).map Partition.sealedPosition

/-! ## Publishing -/

variable [Storage σ]

/-- Inserts into the identifier's partition and then stores the longer list of records.  If the store
refuses, the position stays taken with no value stored for it. -/
def commit (dir : Directory σ) (identifier : Bytes) (records : List ValueRecord)
    (value signature : Bytes) : Directory σ × Except Error UInt64 :=
  match dir.partitionOf identifier with
  | .error e => (dir, .error e)
  | .ok partition =>
    match partition.append identifier value signature with
    | .error e => (dir, .error e)
    | .ok (partition, position) =>
      let dir := dir.setPartition (dir.partitionFor identifier) partition
      let data := ValueRecord.encodeList (⟨position, value, signature⟩ :: records)
      match Storage.put dir.store identifier data with
      | .error e => (dir, .error e)
      | .ok store => ({ dir with store }, .ok position)

/-- Publishes a self-signed master key; each user name registers once. -/
def register (scheme : SignatureScheme) (dir : Directory σ) (username masterKey signature : Bytes) :
    Directory σ × Except Error UInt64 :=
  let identifier := masterKeyIdentifier username
  let admission : Except Error Unit := do
    if (← Storage.records dir.store identifier) ≠ [] then
      throw (.alreadyRegistered (Utf8.decodeLossy username))
    let position ← dir.nextPosition identifier
    (← Claim.masterKey scheme username masterKey signature position).verifySignature scheme
  match admission with
  | .error e => (dir, .error e)
  | .ok () => dir.commit identifier [] masterKey signature

/-- The registered master key of a user, under which public keys must be signed. -/
def verifyingKeyOf (scheme : SignatureScheme) (dir : Directory σ) (username : Bytes) :
    Except Error Bytes := do
  match ← Storage.records dir.store (masterKeyIdentifier username) with
  | [] => throw (.notRegistered (Utf8.decodeLossy username))
  | master :: _ =>
    scheme.checkKey master.value
    pure master.value

/-- Publishes a public key under a user name, if `sign` answers the position it takes with a
signature that verifies under `verifyingKey`. -/
def publish (scheme : SignatureScheme) (dir : Directory σ) (verifyingKey username value : Bytes)
    (sign : UInt64 → Bytes) : Directory σ × Except Error UInt64 :=
  let identifier := publicKeyIdentifier username
  let admission : Except Error (List ValueRecord × Bytes) := do
    let position ← dir.nextPosition identifier
    let signature := sign position
    let claim : Claim := ⟨identifier, value, signature, position, verifyingKey, .publicKey⟩
    claim.verifySignature scheme
    pure (← Storage.records dir.store identifier, signature)
  match admission with
  | .error e => (dir, .error e)
  | .ok (records, signature) => dir.commit identifier records value signature

/-- Publishes a public key of a registered user.  Master keys change through `register` alone. -/
def append (scheme : SignatureScheme) (dir : Directory σ) (username value : Bytes)
    (sign : UInt64 → Bytes) : Directory σ × Except Error UInt64 :=
  match dir.verifyingKeyOf scheme username with
  | .error e => (dir, .error e)
  | .ok verifyingKey => dir.publish scheme verifyingKey username value sign

/-- The position that `append` would ask the owner to sign for. -/
def askedPosition (scheme : SignatureScheme) (dir : Directory σ) (username : Bytes) :
    Except Error UInt64 := do
  let _ ← dir.verifyingKeyOf scheme username
  dir.nextPosition (publicKeyIdentifier username)

/-! ## Looking up -/

def lookupMasterKey (dir : Directory σ) (username : Bytes) : Except Error ValueRecord := do
  let identifier := masterKeyIdentifier username
  match ← Storage.records dir.store identifier with
  | record :: _ => pure record
  | [] => throw (.keyNotFound (Utf8.decodeLossy identifier))

/-- The newest public key in the store below a sealed position and at or before `limit`. -/
def publicKeyBelow (dir : Directory σ) (username : Bytes) (sealedPosition limit : UInt64) :
    Except Error ValueRecord := do
  let identifier := publicKeyIdentifier username
  let records ← Storage.records dir.store identifier
  match records.find? fun r => r.position < sealedPosition ∧ r.position ≤ limit with
  | some record => pure record
  | none => throw (.keyNotFound (Utf8.decodeLossy identifier))

/-- The newest sealed public key published at or before `limit`. -/
def lookupPublicKey (dir : Directory σ) (username : Bytes) (limit : UInt64) :
    Except Error ValueRecord := do
  dir.publicKeyBelow username (← dir.sealedPositionOf (publicKeyIdentifier username)) limit

/-- The newest value under an identifier that the current digest can prove. -/
def lookupWithProof (dir : Directory σ) (identifier : Bytes) : Except Error Lookup := do
  let partition ← dir.partitionOf identifier
  let digest ← partition.digest
  let proof ← partition.existenceProof identifier
  let records ← Storage.records dir.store identifier
  let newest := (((proof.base ++ proof.updates).filter LookupProof.isMember).getLast?.map
    LookupProof.values).getD []
  match records.find? fun r => r.entry identifier ∈ newest with
  | some record => pure ⟨record, dir.partitionFor identifier, digest, proof⟩
  | none => throw (.keyNotFound (Utf8.decodeLossy identifier))

omit [Storage σ]

def checkpoint (dir : Directory σ) (index : Nat) : Except Error Digest := do
  (← dir.partitionAt index).digest

/-- The current digest of a partition and the proof that it continues `previous`. -/
def checkpointSince (dir : Directory σ) (index : Nat) (previous : Digest) :
    Except Error (Digest × CheckpointProof) := do
  let partition ← dir.partitionAt index
  pure (← partition.digest, ← partition.checkpointProof previous)

/-! ## Epochs -/

def stepPartition (step : Partition → Except Error Partition) (dir : Directory σ) (index : Nat) :
    Except Error (Directory σ) := do
  pure (dir.setPartition index (← step (← dir.partitionAt index)))

def sealPartition : Directory σ → Nat → Except Error (Directory σ) :=
  stepPartition Partition.sealUpdates

def advancePartition : Directory σ → Nat → Except Error (Directory σ) :=
  stepPartition Partition.advance

/-- Takes a step for each of the given partitions in turn; the first that fails ends it. -/
def stepAll (step : Directory σ → Nat → Except Error (Directory σ)) (dir : Directory σ) :
    List Nat → Directory σ × Except Error Unit
  | [] => (dir, .ok ())
  | index :: more =>
    match step dir index with
    | .error e => (dir, .error e)
    | .ok dir => stepAll step dir more

/-- Ends the update epoch of every partition. -/
def sealUpdates (dir : Directory σ) : Directory σ × Except Error Unit :=
  stepAll sealPartition dir (List.range dir.partitions.size)

/-- Ends the verification period of every partition. -/
def advance (dir : Directory σ) : Directory σ × Except Error Unit :=
  stepAll advancePartition dir (List.range dir.partitions.size)

end Directory

end KeyTransparency
