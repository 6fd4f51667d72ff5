import KeyTransparency.Auditor
import KeyTransparency.Directory
import KeyTransparency.Wire.Json

/-!
A workload that drives a directory and checks it all the way.

Users register, publish keys and look themselves up for some rounds of one verification period each.
Every lookup is validated as a client would, and every checkpoint is shown to an auditor; the first
failure ends the simulation.
-/

namespace KeyTransparency

/-- Where the keys of a simulation come from. -/
structure KeySource where
  /-- The secret of a user's master key. -/
  owner : (user : Nat) → Bytes
  /-- The public keys to publish, in order. -/
  device : (count : Nat) → Bytes

/-- Keys derived from a seed. -/
def KeySource.ofSeed (scheme : SigningScheme) (seed : Bytes) : KeySource where
  owner user := Blake3.digest (0 :: Bytes.bigEndian 8 user ++ seed)
  device count := scheme.publicKey (Blake3.digest (1 :: Bytes.bigEndian 8 count ++ seed))

structure SimulationPlan where
  users : Nat
  /-- The public keys that each user publishes in a round. -/
  appends : Nat
  rounds : Nat

/-- A simulation under way, with what it has counted. -/
structure Simulation (σ : Type) where
  directory : Directory σ
  auditor : Auditor
  appends : Nat
  devices : Nat
  lookups : Nat
  checkpoints : Nat

structure SimulationReport where
  plan : SimulationPlan
  partitions : Nat
  aggregated : Bool
  appends : Nat
  lookups : Nat
  checkpoints : Nat
  digests : List Digest

namespace Simulation

variable {σ : Type} [Storage σ]

abbrev Step (σ α : Type) := ExceptT Error (StateM (Simulation σ)) α

/-- A request to the directory. -/
def request {α : Type} (run : Directory σ → Directory σ × Except Error α) : Step σ α := do
  let s ← get
  let (directory, result) := run s.directory
  set { s with directory }
  result

/-- A question to the directory. -/
def ask {α : Type} (question : Directory σ → Except Error α) : Step σ α := do
  question (← get).directory

def username (user : Nat) : Bytes := Bytes.ofString s!"user{user}"

/-- Shows one partition's checkpoint to the auditor. -/
def auditPartition (index : Nat) : Step σ Unit := do
  let s ← get
  let (digest, proof) ←
    match s.auditor.last? index with
    | some previous => ask fun dir => dir.checkpointSince index previous
    | none => do pure (← ask fun dir => dir.checkpoint index, CheckpointProof.empty)
  let (auditor, verdict) := s.auditor.observe index digest proof
  let _ ← verdict
  modify fun s => { s with auditor, checkpoints := s.checkpoints + 1 }

def audit : Step σ Unit := do
  for index in List.range (← get).directory.partitions.size do
    auditPartition index

def sealUpdates : Step σ Unit := request Directory.sealUpdates

variable (scheme : SigningScheme) (keys : KeySource)

def registerUser (user : Nat) : Step σ Unit := do
  let secret := keys.owner user
  let masterKey := scheme.publicKey secret
  let signature := scheme.sign secret masterKey
  let _ ← request fun dir =>
    dir.register scheme.toSignatureScheme (username user) masterKey signature
  modify fun s => { s with appends := s.appends + 1 }

def publishKey (user : Nat) : Step σ Unit := do
  let s ← get
  let key := keys.device s.devices
  set { s with devices := s.devices + 1 }
  let sign position := scheme.sign (keys.owner user) (signedPayload key position)
  let _ ← request fun dir => dir.append scheme.toSignatureScheme (username user) key sign
  modify fun s => { s with appends := s.appends + 1 }

/-- Looks an identifier up and validates the claim made from the record. -/
def checkLookup (identifier : Bytes) (claim : ValueRecord → Except Error Claim) : Step σ Unit := do
  let found ← ask fun dir => dir.lookupWithProof identifier
  (← claim found.record).validate scheme.toSignatureScheme found.digest found.proof
  modify fun s => { s with lookups := s.lookups + 1 }

/-- Checks the newest provable master key of a user, and public key if there is one. -/
def checkUser (hasPublicKeys : Bool) (user : Nat) : Step σ Unit := do
  checkLookup scheme (masterKeyIdentifier (username user)) fun r =>
    Claim.masterKey scheme.toSignatureScheme (username user) r.value r.signature r.position
  if hasPublicKeys then
    let identifier := publicKeyIdentifier (username user)
    checkLookup scheme identifier fun r =>
      Claim.publicKey scheme.toSignatureScheme identifier r.value r.signature r.position
        (scheme.publicKey (keys.owner user))

def round (plan : SimulationPlan) : Step σ Unit := do
  for _ in List.range plan.appends do
    for user in List.range plan.users do
      publishKey scheme keys user
    sealUpdates
    audit
  for user in List.range plan.users do
    checkUser scheme keys (0 < plan.appends) user
  request Directory.advance
  audit

def run (plan : SimulationPlan) (aggregated : Bool) : Step σ SimulationReport := do
  for user in List.range plan.users do
    registerUser scheme keys user
  sealUpdates
  audit
  for _ in List.range plan.rounds do
    round scheme keys plan
  let s ← get
  let digests ← (List.range s.directory.partitions.size).mapM fun index =>
    ask fun dir => dir.checkpoint index
  pure
    { plan, aggregated, digests
      partitions := s.directory.partitions.size
      appends := s.appends, lookups := s.lookups, checkpoints := s.checkpoints }

end Simulation

open Simulation in
/-- Runs a simulation on a store and answers what becomes of the store. -/
def simulate {σ : Type} [Storage σ] (scheme : SigningScheme) (keys : KeySource) (config : Config)
    (plan : SimulationPlan) (store : σ) : σ × Except Error SimulationReport :=
  match Directory.new config store with
  | .error e => (store, .error e)
  | .ok directory =>
    let (result, final) :=
      (run scheme keys plan config.aggregatedHistory).run.run ⟨directory, .empty, 0, 0, 0, 0⟩
    (final.directory.store, result)

namespace SimulationReport

def digestJson (index : Nat) (digest : Digest) : Json :=
  .ofMembers
    [("base_size", .ofNat digest.baseSize),
      ("chain", .ofString digest.chain.toHex),
      ("history_size", (digest.history.map fun h => Json.ofNat h.size).getD .null),
      ("partition", .ofNat index),
      ("update_epoch", .ofNat digest.updateEpoch.toNat),
      ("verification_epoch", .ofNat digest.verificationEpoch.toNat)]

/-- The report, members in the order of their names. -/
def toJson (report : SimulationReport) : Json :=
  .ofMembers
    [("aggregated", .bool report.aggregated),
      ("appends", .ofNat report.appends),
      ("checkpoints_audited", .ofNat report.checkpoints),
      ("digests", .array (report.digests.zipIdx.map fun (digest, index) => digestJson index digest)),
      ("lookups_validated", .ofNat report.lookups),
      ("partitions", .ofNat report.partitions),
      ("rounds", .ofNat report.plan.rounds),
      ("users", .ofNat report.plan.users)]

end SimulationReport

end KeyTransparency
