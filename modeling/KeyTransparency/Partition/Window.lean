import KeyTransparency.Log.Basic
import KeyTransparency.Trie.Prefix

/-!
The sealed update tries around the current verification period.

The query side serves proofs.  The verify side collects the tries of the current period and becomes
the query side when the period ends.
-/

namespace KeyTransparency

/-- A log and the sealed tries it lists. -/
structure SealedSet where
  log : CommitmentLog
  tries : List PrefixTrie
deriving DecidableEq

namespace SealedSet

def empty : SealedSet := ⟨.empty, []⟩

def roots (set : SealedSet) : List Hash := set.tries.map PrefixTrie.rootHash

def add (set : SealedSet) (updateEpoch : UInt64) (trie : PrefixTrie) : SealedSet :=
  ⟨set.log.append ⟨updateEpoch, trie.rootHash⟩, set.tries ++ [trie]⟩

end SealedSet

structure EpochWindow where
  query : SealedSet
  verify : SealedSet
deriving DecidableEq

namespace EpochWindow

def empty : EpochWindow := ⟨.empty, .empty⟩

instance : Inhabited EpochWindow := ⟨empty⟩

/-- Records a sealed trie on both sides. -/
def add (window : EpochWindow) (updateEpoch : UInt64) (trie : PrefixTrie) : EpochWindow :=
  ⟨window.query.add updateEpoch trie, window.verify.add updateEpoch trie⟩

/-- Promotes the verify side and starts an empty one. -/
def rotate (window : EpochWindow) : EpochWindow := ⟨window.verify, .empty⟩

end EpochWindow

end KeyTransparency
