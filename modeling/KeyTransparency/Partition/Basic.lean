import KeyTransparency.Partition.Digest
import KeyTransparency.Partition.Window
import KeyTransparency.Trie.Persistent

/-!
A partition: one base trie, its update window and two clocks.

The update epoch seals the recent appends into a trie of their own, which makes them provable soon.
The verification epoch is the epoch of the base trie: it closes a snapshot, rotates the window and
adds a link to the chain.  Clients check against the snapshot `auditLag` periods back, which an
auditor has had a full period to examine.  A partition may keep a history forest with a leaf for
every settled snapshot; then clients check against the newest snapshot under each of its roots.

A partition changes by `append`, `sealUpdates` and `advance` only; a step that fails has no new
state.
-/

namespace KeyTransparency

/-- How many verification periods the audited snapshot is behind. -/
def auditLag : Nat := 2

/-- The bits of a trie key: the length of an identifier's commitment. -/
def keyBits : Nat := 256

inductive PartitionKind
  | window
  | aggregated
deriving DecidableEq, Repr

structure Partition where
  base : PersistentTrie
  window : EpochWindow
  /-- The appends not yet sealed, oldest first. -/
  pending : List (Bits × ValueEntry)
  updateEpoch : UInt64
  settledUpdateEpoch : UInt64
  /-- The position the next append takes. -/
  nextPosition : UInt64
  /-- Every position below this one is in a sealed update trie. -/
  sealedPosition : UInt64
  chain : Hash
  history : Option HistoryForest
deriving DecidableEq

namespace Partition

def kind (p : Partition) : PartitionKind := if p.history.isSome then .aggregated else .window

def verificationEpoch (p : Partition) : Nat := p.base.epoch

/-! ## Steps -/

/-- Commits to a value under an identifier and queues it for the next update epoch; answers its
position. -/
def append (p : Partition) (identifier value signature : Bytes) : Except Error (Partition × UInt64) :=
  let key := Bits.ofIdentifier identifier
  let position := p.nextPosition
  let entry : ValueEntry := ⟨contentHash identifier value signature position, position⟩
  match p.base.insert key entry with
  | (_, .error e) => .error e
  | (base, .ok ()) =>
    .ok ({ p with base, pending := p.pending ++ [(key, entry)], nextPosition := position + 1 }, position)

/-- The sealed trie over some appends. -/
def sealedTrie (pending : List (Bits × ValueEntry)) : Except Error PrefixTrie := do
  let trie ← pending.foldlM
    (fun trie (key, entry) =>
      match trie.insert key entry with
      | (_, .error e) => .error e
      | (trie, .ok ()) => .ok trie)
    (PrefixTrie.empty (some keyBits))
  pure trie.toSealed

/-- Ends the update epoch: seals the queued appends into a trie and logs its root. -/
def sealUpdates (p : Partition) : Except Error Partition := do
  let trie ← sealedTrie p.pending
  let updateEpoch := p.updateEpoch + 1
  pure { p with
    pending := []
    updateEpoch
    sealedPosition := p.nextPosition
    window := p.window.add updateEpoch trie }

/-- The snapshots that the chain links once `base` has reached its epoch: the one `auditLag` periods
back and the one after it. -/
def linkedRoots (base : PersistentTrie) : Except Error (Option (Hash × Hash)) :=
  if base.epoch < auditLag then .ok none
  else do
    let older ← base.rootHash (base.epoch - auditLag)
    let newer ← base.rootHash (base.epoch - auditLag + 1)
    pure (some (older, newer))

/-- Commits the snapshot that has just settled to the history. -/
def settle (base : PersistentTrie) (forest : HistoryForest) : Except Error HistoryForest :=
  if base.epoch < auditLag then .ok forest
  else do
    let settled := base.epoch - auditLag
    forest.append (← base.rootHash settled) (UInt64.ofNat settled)

/-- Ends the verification period: closes the base trie's epoch, rotates the window, extends the chain
and, where a history is kept, commits the snapshot that has settled.  A full history refuses. -/
def advance (p : Partition) : Except Error Partition := do
  let base := p.base.nextEpoch
  let chain ← match ← linkedRoots base with
    | none => pure p.chain
    | some (older, newer) => pure (chainLink older newer p.updateEpoch p.chain)
  let history ← match p.history with
    | none => pure none
    | some forest => some <$> settle base forest
  pure { p with
    base, chain, history
    window := p.window.rotate
    settledUpdateEpoch := p.updateEpoch }

/-- A partition at verification epoch zero, which has no audited snapshot yet. -/
def initial (history : Option HistoryForest) : Partition :=
  { base := .empty (some keyBits)
    window := .empty
    pending := []
    updateEpoch := 0, settledUpdateEpoch := 0, nextPosition := 0, sealedPosition := 0
    chain := Hash.zero
    history }

/-- A new partition, advanced twice so that the audited snapshot exists. -/
def new (history : Option HistoryForest) : Except Error Partition := do
  (← (initial history).advance).advance

/-- A new partition, with a history of that depth if `aggregated`. -/
def create (aggregated : Bool) (depth : Nat) : Except Error Partition :=
  new (if aggregated then some (.empty depth) else none)

/-! ## Digests and proofs -/

/-- The base-trie epoch that clients check against. -/
def auditedEpoch (p : Partition) : Except Error Nat :=
  if p.verificationEpoch < auditLag then .error (.epochNotYetOccurred auditLag p.verificationEpoch)
  else .ok (p.verificationEpoch - auditLag)

def digest (p : Partition) : Except Error Digest := do
  let older ← p.auditedEpoch
  pure
    { settledRoot := ← p.base.rootHash older
      recentRoot := ← p.base.rootHash (older + 1)
      baseSize := ← p.base.sizeAt older
      updateLog := p.window.query.log.digest
      pendingLog := p.window.verify.log.digest
      updateRoots := p.window.query.roots
      updateEpoch := p.updateEpoch
      verificationEpoch := UInt64.ofNat p.verificationEpoch
      settledUpdateEpoch := p.settledUpdateEpoch
      chain := p.chain
      history := p.history.map HistoryForest.digest }

/-- The base-trie epochs whose snapshots clients check against, in the order of
`Digest.baseRoots`. -/
def provenEpochs (p : Partition) : Except Error (List Nat) :=
  match p.history with
  | none => do pure [← p.auditedEpoch]
  | some forest => .ok (forest.digest.roots.map fun root => root.period.toNat)

/-- Proofs about an identifier against every trie the digest names. -/
def existenceProof (p : Partition) (identifier : Bytes) : Except Error ExistenceProof := do
  let key := Bits.ofIdentifier identifier
  let base ← (← p.provenEpochs).mapM (p.base.prove key)
  let updates ← p.window.query.tries.mapM (·.prove key)
  pure ⟨base, updates⟩

/-- Consistency of the log that is still growing with its state at `oldSize`. -/
def updateConsistencyProof (p : Partition) (oldSize : Nat) : Except Error ConsistencyProof :=
  p.window.verify.log.consistencyProof oldSize p.window.verify.log.size

/-- Consistency of the log that serves proofs with its state at `oldSize`, for a digest from before
the last verification period. -/
def settledConsistencyProof (p : Partition) (oldSize : Nat) : Except Error ConsistencyProof :=
  p.window.query.log.consistencyProof oldSize p.window.query.log.size

/-- Links `previous` to the current digest: within a period its pending log has grown, across one
period it has become the update log. -/
def logProofSince (p : Partition) (previous : Digest) : Except Error ConsistencyProof :=
  let now := UInt64.ofNat p.verificationEpoch
  if previous.verificationEpoch = now then p.updateConsistencyProof previous.pendingLog.size
  else if previous.verificationEpoch + 1 = now then
    p.settledConsistencyProof previous.pendingLog.size
  else .ok .empty

/-- What an auditor who holds `previous` needs to accept the current digest. -/
def checkpointProof (p : Partition) (previous : Digest) : Except Error CheckpointProof := do
  let history ← match p.history, previous.history with
    | some forest, some old => some <$> forest.extensionProof old.size forest.size
    | _, _ => pure none
  pure ⟨← p.logProofSince previous, history⟩

end Partition

end KeyTransparency
