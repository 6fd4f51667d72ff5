import KeyTransparency.Forest.Extension
import KeyTransparency.Log.Consistency
import KeyTransparency.Trie.Proof

/-!
What a partition publishes about itself, and the proofs that go with it.
-/

namespace KeyTransparency

/-- A partition's commitments at one moment, `v` being its verification epoch. -/
structure Digest where
  /-- The base-trie root at epoch `v - 2`, against which clients check. -/
  settledRoot : Hash
  /-- The base-trie root at epoch `v - 1`. -/
  recentRoot : Hash
  /-- The number of distinct keys at epoch `v - 2`. -/
  baseSize : Nat
  /-- The log of the update tries that serve proofs. -/
  updateLog : LogDigest
  /-- The log of the update tries sealed in the current period. -/
  pendingLog : LogDigest
  /-- The roots of the update tries that serve proofs, oldest first. -/
  updateRoots : List Hash
  updateEpoch : UInt64
  verificationEpoch : UInt64
  /-- The update epoch bound into the last link of the chain. -/
  settledUpdateEpoch : UInt64
  chain : Hash
  /-- The roots of the history forest, where one is kept. -/
  history : Option ForestDigest
deriving DecidableEq

def chainPreimage (older newer : Hash) (updateEpoch : UInt64) (previous : Hash) : Bytes :=
  Hash.preimage .chain
    [older.bytes, newer.bytes, Bytes.bigEndian64 updateEpoch, previous.bytes]

/-- One step of the chain over verification epochs. -/
def chainLink (older newer : Hash) (updateEpoch : UInt64) (previous : Hash) : Hash :=
  Hash.digest (chainPreimage older newer updateEpoch previous)

namespace Digest

/-- The chain value that `next` must carry if it is the period right after `digest`. -/
def expectedNextChain (digest next : Digest) : Hash :=
  chainLink next.settledRoot next.recentRoot next.settledUpdateEpoch digest.chain

/-- The base-trie roots that clients check against: those under the history roots, or the settled
one where no history is kept. -/
def baseRoots (digest : Digest) : List Hash :=
  match digest.history with
  | none => [digest.settledRoot]
  | some history => history.roots.map ForestNode.newestLeaf

end Digest

/-- Proofs that an identifier is or is not in each of the published tries. -/
structure ExistenceProof where
  /-- One proof for each of `Digest.baseRoots`. -/
  base : List LookupProof
  /-- One proof for each of the update tries that serve proofs. -/
  updates : List LookupProof
deriving DecidableEq

def ExistenceProof.hasMembership (proof : ExistenceProof) : Bool :=
  (proof.base ++ proof.updates).any LookupProof.isMember

/-- The proof that a digest continues an earlier one of the same partition. -/
structure CheckpointProof where
  log : ConsistencyProof
  history : Option ExtensionProof
deriving DecidableEq

def CheckpointProof.empty : CheckpointProof := ⟨.empty, none⟩

instance : Inhabited CheckpointProof := ⟨.empty⟩

end KeyTransparency
