import KeyTransparency.Partition.Digest

/-!
Checkpoint auditing.

An auditor keeps the last digest it accepted of each partition and certifies a new one as its
continuation, without downloading the logs or tries.  Epochs are 64-bit words and nothing is assumed of
the digests.  The sum in `check` is the words' own, as in a release build; `overflows` says where a
build that checks its sums stops instead.
-/

namespace KeyTransparency

/-- How a digest was accepted. -/
inductive Verdict
  /-- The first digest of a partition, taken on trust. -/
  | first
  /-- The same verification period; the update log grew. -/
  | extended
  /-- The next verification period, and the chain was extended. -/
  | settled
  /-- More than one period was missed; the digest becomes the new anchor. -/
  | reanchored
deriving DecidableEq, Repr

namespace Auditor

def invalid {α : Type} (part : ProofSource) (fault : ProofFault) : Except Error α :=
  .error (.proofInvalid part fault)

def checkHistory (previous next : Digest) (proof : CheckpointProof) : Except Error Unit :=
  match previous.history, next.history with
  | none, none => .ok ()
  | some old, some new =>
    match proof.history with
    | some extension => Forest.verifyExtension old new extension
    | none => if old = new then .ok () else invalid .history .historyWithoutProof
  | _, _ => invalid .history .historyModeSwitched

/-- Both logs of a period grow together, and the chain and the snapshots stay. -/
def checkWithinPeriod (previous next : Digest) (proof : CheckpointProof) : Except Error Unit := do
  Log.verifyConsistency previous.pendingLog next.pendingLog proof.log
  if next.updateLog.size ≠
      previous.updateLog.size + (next.pendingLog.size - previous.pendingLog.size) then
    invalid .log .growthDiffers
  if next.chain ≠ previous.chain ∨ next.settledRoot ≠ previous.settledRoot ∨
      next.recentRoot ≠ previous.recentRoot then
    invalid .chain .changedWithinPeriod

/-- Across a period the pending log becomes the update log, the snapshots slide by one and the chain
gets a link. -/
def checkAcrossPeriod (previous next : Digest) (proof : CheckpointProof) : Except Error Unit := do
  Log.verifyConsistency previous.pendingLog next.updateLog proof.log
  if next.settledRoot ≠ previous.recentRoot then invalid .chain .windowDidNotSlide
  if next.chain ≠ previous.expectedNextChain next then invalid .chain .chainBroken

/-- Certifies `next` as a continuation of `previous`. -/
def check (previous next : Digest) (proof : CheckpointProof) : Except Error Verdict := do
  if next.updateEpoch < previous.updateEpoch then
    invalid .log (.updateEpochWentBack previous.updateEpoch next.updateEpoch)
  if next.verificationEpoch = previous.verificationEpoch then
    checkWithinPeriod previous next proof
    checkHistory previous next proof
    pure .extended
  else if next.verificationEpoch = previous.verificationEpoch + 1 then
    checkAcrossPeriod previous next proof
    checkHistory previous next proof
    pure .settled
  else if previous.verificationEpoch < next.verificationEpoch then
    pure .reanchored
  else
    invalid .chain
      (.verificationEpochWentBack previous.verificationEpoch next.verificationEpoch)

/-- The sum in `check` is reached and does not fit a word. -/
def overflows (previous next : Digest) : Bool :=
  !(next.updateEpoch < previous.updateEpoch) && next.verificationEpoch != previous.verificationEpoch &&
    previous.verificationEpoch + 1 < previous.verificationEpoch

end Auditor

/-- The digests last accepted, by partition. -/
structure Auditor where
  retained : List (Nat × Digest)

namespace Auditor

def empty : Auditor := ⟨[]⟩

instance : Inhabited Auditor := ⟨empty⟩

def last? (auditor : Auditor) (partition : Nat) : Option Digest := auditor.retained.lookup partition

def retain (auditor : Auditor) (partition : Nat) (digest : Digest) : Auditor :=
  ⟨(partition, digest) :: auditor.retained.filter (·.1 ≠ partition)⟩

/-- Checks a digest against the one retained and retains it if it is accepted. -/
def observe (auditor : Auditor) (partition : Nat) (digest : Digest) (proof : CheckpointProof) :
    Auditor × Except Error Verdict :=
  let verdict : Except Error Verdict :=
    match auditor.last? partition with
    | none => .ok .first
    | some previous => check previous digest proof
  match verdict with
  | .error e => (auditor, .error e)
  | .ok verdict => (auditor.retain partition digest, .ok verdict)

end Auditor

end KeyTransparency
