import KeyTransparency.Hash

/-!
Everything that can go wrong, by cause.

`ProofFault` says why a proof was refused and `ProofSource` which part of a composite proof it
concerns; `StructureFault` names the shapes that no trie grown by inserts can have, but that a trie
read from outside may.  The wording is in the `message` functions alone.
-/

namespace KeyTransparency

/-- Which part of a composite proof a failure is about. -/
inductive ProofSource
  | baseTrie (index : Nat)
  | updateTrie (index : Nat)
  | trie
  | log
  | history
  | chain
  | signature
deriving DecidableEq, Repr

def ProofSource.display : ProofSource → String
  | baseTrie i => "base trie " ++ toString i
  | updateTrie i => "update trie " ++ toString i
  | trie => "trie"
  | log => "update log"
  | history => "history forest"
  | chain => "hash chain"
  | signature => "signature"

/-- Why a proof is refused. -/
inductive ProofFault
  -- trie proofs
  | pathNotKey
  | membershipRoot (expected computed : Hash)
  | frontierNotDivergent
  | nonMembershipRoot (expected computed : Hash)
  -- log and forest proofs
  | sizesDiffer
  | logShrank
  | equalSizesDiffer
  | proofFromEmptyLog
  | emptyProof
  | proofTooLong
  | proofTooShort
  | oldRootDiffers
  | newRootDiffers
  | forestShrank
  | rootCount
  | settledRootRewritten
  | unexpectedSiblings
  | walkPassedChangedRoot
  | missingSibling
  | walkIncomplete
  | extraSiblings
  | rebuiltRootDiffers
  -- checkpoints
  | updateEpochWentBack (previous next : UInt64)
  | growthDiffers
  | changedWithinPeriod
  | windowDidNotSlide
  | chainBroken
  | verificationEpochWentBack (previous next : UInt64)
  | historyWithoutProof
  | historyModeSwitched
  -- claims
  | keyLength
  | keyNotOnCurve
  | signatureMalformed
  | signatureRefused
  | updateProofCount (proofs tries : Nat)
  | baseProofCount (proofs snapshots : Nat)
  | keyDisappeared
  | noHistoryRoots
  | noMembership
  | valueNotInLeaf
deriving DecidableEq

def ProofFault.message : ProofFault → String
  | pathNotKey => "membership path does not spell out the key"
  | membershipRoot expected computed =>
    s!"membership root mismatch: expected {expected.short}, computed {computed.short}"
  | frontierNotDivergent => "frontier is not a divergence point of the key"
  | nonMembershipRoot expected computed =>
    s!"non-membership root mismatch: expected {expected.short}, computed {computed.short}"
  | sizesDiffer => "proof sizes do not match the digests"
  | logShrank => "old log is larger than new log"
  | equalSizesDiffer => "equal sizes with different roots"
  | proofFromEmptyLog => "non-empty proof from an empty log"
  | emptyProof => "empty proof"
  | proofTooLong => "proof is longer than the tree"
  | proofTooShort => "proof is shorter than the tree"
  | oldRootDiffers => "recomputed old root does not match"
  | newRootDiffers => "recomputed new root does not match"
  | forestShrank => "old forest is larger than new forest"
  | rootCount => "root count does not match forest size"
  | settledRootRewritten => "a settled root was rewritten"
  | unexpectedSiblings => "unexpected siblings"
  | walkPassedChangedRoot => "walk passed the first changed root"
  | missingSibling => "proof is missing a sibling"
  | walkIncomplete => "walk did not consume every changed root"
  | extraSiblings => "proof has extra siblings"
  | rebuiltRootDiffers => "rebuilt root does not match the new digest"
  | updateEpochWentBack previous next => s!"update epoch went back from {previous} to {next}"
  | growthDiffers => "update log and pending log grew by different amounts"
  | changedWithinPeriod => "chain or base snapshots changed within a period"
  | windowDidNotSlide => "base window did not slide by one snapshot"
  | chainBroken => "chain does not extend the previous link"
  | verificationEpochWentBack previous next =>
    s!"verification epoch went back from {previous} to {next}"
  | historyWithoutProof => "history grew without an extension proof"
  | historyModeSwitched => "partition switched history modes"
  | keyLength => "verifying key must be 32 bytes"
  | keyNotOnCurve => "bad verifying key: signature error: Cannot decompress Edwards point"
  | signatureMalformed => "malformed signature: signature error"
  | signatureRefused => "signature does not verify"
  | updateProofCount proofs tries => s!"{proofs} update proofs for {tries} update tries"
  | baseProofCount proofs snapshots => s!"{proofs} base proofs for {snapshots} snapshots"
  | keyDisappeared => "key disappeared from a later snapshot"
  | noHistoryRoots => "digest carries no history roots"
  | noMembership => "no membership proof for the key"
  | valueNotInLeaf => "claimed value is not in the newest leaf"

/-- A shape that no trie grown by inserts has. -/
inductive StructureFault
  | leafBeforeKeyEnd (depth length : Nat)
  | keyEndsAtBranch
  | emptyChildBelowRoot
  | rootIsLeaf
  | keyEndsInLabel
  | keyPassesLeaf
  | keyEndsAtInternalNode
  | nodeFromLaterEpoch (created current : Nat)
  | supersededNode
  | leafAsParent
  | rehashOfPastEpoch (epoch : Nat)
  | nodeNewerThanReading (created reading : Nat)
  | danglingNode (index : Nat)
  | missingRoot (epoch : Nat)
  | endlessDescent
deriving DecidableEq, Repr

def StructureFault.message : StructureFault → String
  | leafBeforeKeyEnd depth length => s!"leaf reached after {depth} of {length} key bits"
  | keyEndsAtBranch => "key exhausted at an internal node"
  | emptyChildBelowRoot => "only the root may have an empty child"
  | rootIsLeaf => "root is a leaf"
  | keyEndsInLabel => "key ends inside a node label"
  | keyPassesLeaf => "key continues past a leaf"
  | keyEndsAtInternalNode => "key ends at an internal node"
  | nodeFromLaterEpoch created current => s!"node from epoch {created} reached in epoch {current}"
  | supersededNode => "superseded node version reached from the live root"
  | leafAsParent => "leaf used as a parent"
  | rehashOfPastEpoch epoch => s!"rehash of a node from past epoch {epoch}"
  | nodeNewerThanReading created reading =>
    s!"node from epoch {created} reached while reading epoch {reading}"
  | danglingNode index => s!"no node {index}"
  | missingRoot epoch => s!"no root for epoch {epoch}"
  | endlessDescent => "labels do not consume the key"

/-- What a file system refuses. -/
inductive FileFault
  | notFound
  | fileExists
  | notDirectory
  | isDirectory
  | nameTooLong
  | zeroInName
  /-- What is written is not kept. -/
  | notKept
deriving DecidableEq, Repr

def FileFault.message : FileFault → String
  | notFound => "No such file or directory (os error 2)"
  | fileExists => "File exists (os error 17)"
  | notDirectory => "Not a directory (os error 20)"
  | isDirectory => "Is a directory (os error 21)"
  | nameTooLong => "File name too long (os error 36)"
  | zeroInName => "file name contained an unexpected NUL byte"
  | notKept => "Invalid argument (os error 22)"

/-- Why settings are refused, or cannot be read or written. -/
inductive ConfigFault
  | noPartitions
  | zeroPeriod
  | updateLongerThanVerification (update verification : Nat)
  | historyTooDeep (depth limit : Nat)
  | notText (path : String)
  | unreadable (path : String) (fault : FileFault)
  | directoryNotMade (fault : FileFault)
  | notWritten (fault : FileFault)
  | noDirectory
deriving DecidableEq, Repr

def ConfigFault.message : ConfigFault → String
  | noPartitions => "partitions must be at least 1"
  | zeroPeriod => "epoch periods must be non-zero"
  | updateLongerThanVerification update verification =>
    s!"update period ({update} ms) is longer than the verification period ({verification} ms)"
  | historyTooDeep depth limit => s!"history depth {depth} exceeds {limit}"
  | notText path => s!"Failed to read {path}: stream did not contain valid UTF-8"
  | unreadable path fault => s!"Failed to read {path}: {fault.message}"
  | directoryNotMade fault => s!"Failed to create config dir: {fault.message}"
  | notWritten fault => s!"Failed to write config: {fault.message}"
  | noDirectory => "Could not find config directory"

inductive Error
  -- files and formats
  | io
  | binaryFormat
  | jsonFormat
  | configFormat
  | configNotWritable
  | corruptRecord
  | notAStoreFile
  | storeVersion (expected found : Nat)
  | config (fault : ConfigFault)
  -- tries, logs and forests
  | keyNotFound (what : String)
  | epochNotYetOccurred (requested current : Nat)
  | malformed (fault : StructureFault)
  | sealedTrie
  | keyLength (expected found : Nat)
  | historyFull (capacity : Nat)
  | invalidRange (old new : Nat)
  -- users
  | alreadyRegistered (name : String)
  | notRegistered (name : String)
  -- proofs
  | proofInvalid (part : ProofSource) (fault : ProofFault)
deriving DecidableEq

namespace Error

def message : Error → String
  | io => "IO error"
  | binaryFormat => "Serialization error"
  | jsonFormat => "JSON error"
  | configFormat => "Config parse error"
  | configNotWritable => "Config write error"
  | corruptRecord => "Corruption detected"
  | notAStoreFile => "Invalid store file: Invalid magic bytes"
  | storeVersion expected found => s!"Version mismatch: expected {expected}, found {found}"
  | config fault => "Config error: " ++ fault.message
  | keyNotFound what => "Key not found: " ++ what
  | epochNotYetOccurred requested current =>
    s!"Epoch {requested} has not occurred yet (current epoch is {current})"
  | malformed fault => "Structural invariant violated: " ++ fault.message
  | sealedTrie => "Cannot insert into a sealed trie"
  | keyLength expected found => s!"Key length mismatch: expected {expected} bits, found {found}"
  | historyFull capacity => s!"History forest is full ({capacity} entries)"
  | invalidRange old new => s!"Invalid size range: old size {old} is past new size {new}"
  | alreadyRegistered name => "Already registered: " ++ name
  | notRegistered name => "Not registered: " ++ name
  | proofInvalid part fault => s!"Invalid proof ({part.display}): {fault.message}"

/-- Puts a proof failure down to the sub-proof that produced it. -/
def attributeTo (part : ProofSource) : Error → Error
  | proofInvalid _ fault => proofInvalid part fault
  | other => other

/-- The failures a client must treat as a security event. -/
def isProofFailure : Error → Bool
  | proofInvalid .. => true
  | _ => false

end Error

/-! ## Checks in sequence -/

section

variable {ε ε' α β : Type}

/-- What follows a check counts only if the check passes. -/
theorem check_eq_ok_iff {c : Prop} [Decidable c] {fault : ε} {rest : Except ε α} {a : α} :
    (if c then (do throw fault; rest) else rest) = .ok a ↔ ¬ c ∧ rest = .ok a := by
  by_cases h : c
  · rw [if_pos h]
    constructor
    · intro hthrow
      cases hthrow
    · rintro ⟨hnot, -⟩
      exact absurd h hnot
  · rw [if_neg h]
    exact ⟨fun hrest => ⟨h, hrest⟩, fun hrest => hrest.2⟩

theorem lastCheck_eq_ok_iff {c : Prop} [Decidable c] {fault : ε} :
    (if c then throw fault else pure () : Except ε Unit) = .ok () ↔ ¬ c := by
  by_cases h : c
  · rw [if_pos h]
    constructor
    · intro hthrow
      cases hthrow
    · intro hnot
      exact absurd h hnot
  · rw [if_neg h]
    exact ⟨fun _ => h, fun _ => rfl⟩

theorem bind_eq_ok_iff {x : Except ε α} {f : α → Except ε β} {b : β} :
    (x >>= f) = .ok b ↔ ∃ a, x = .ok a ∧ f a = .ok b := by
  cases x with
  | error fault =>
    constructor
    · intro h
      cases h
    · rintro ⟨a, h, -⟩
      cases h
  | ok a =>
    constructor
    · intro h
      exact ⟨a, rfl, h⟩
    · rintro ⟨_, h, hf⟩
      cases h
      exact hf

/-- Of two checks one after the other both have to pass. -/
theorem then_eq_ok_iff {x : Except ε Unit} {rest : Except ε β} {b : β} :
    (do x; rest) = .ok b ↔ x = .ok () ∧ rest = .ok b := by
  rw [bind_eq_ok_iff]
  constructor
  · rintro ⟨_, hx, hrest⟩
    exact ⟨hx, hrest⟩
  · rintro ⟨hx, hrest⟩
    exact ⟨(), hx, hrest⟩

theorem mapError_eq_ok_iff {f : ε → ε'} {x : Except ε α} {a : α} :
    x.mapError f = .ok a ↔ x = .ok a := by
  cases x with
  | error fault =>
    constructor
    · intro h
      cases h
    · intro h
      cases h
  | ok b =>
    constructor
    · intro h
      cases h
      rfl
    · intro h
      cases h
      rfl

end

end KeyTransparency
