import KeyTransparency.Error
import KeyTransparency.Tower

/-!
An append-only log of sealed tries and the Merkle tree over it.

The tree over `n` entries splits at the largest power of two below `n`.  The log keeps the nodes of
all perfect subtrees, so that its root at any earlier size takes one look-up per set bit.
-/

namespace KeyTransparency

/-- An update epoch and the root of the trie sealed in it. -/
structure LogEntry where
  epoch : UInt64
  root : Hash
deriving DecidableEq

/-- What a verifier knows of a log. -/
structure LogDigest where
  root : Hash
  size : Nat
deriving DecidableEq

namespace Log

def leafPreimage (entry : LogEntry) : Bytes :=
  Hash.preimage .logLeaf [Bytes.bigEndian64 entry.epoch, entry.root.bytes]

def nodePreimage (left right : Hash) : Bytes := Hash.preimage .logNode [left.bytes, right.bytes]

def emptyPreimage : Bytes := Hash.preimage .logNode []

def leafHash (entry : LogEntry) : Hash := Hash.digest (leafPreimage entry)

def nodeHash (left right : Hash) : Hash := Hash.digest (nodePreimage left right)

/-- The root of a log without entries. -/
def emptyRoot : Hash := Hash.digest emptyPreimage

/-- The largest power of two below `n`, for `n` of at least two. -/
def splitPoint (n : Nat) : Nat := Tower.blockSize (Nat.log2 (n - 1))

def isPowerOfTwo (n : Nat) : Bool := n == Tower.blockSize (Nat.log2 n)

theorem splitPoint_pos (n : Nat) : 0 < splitPoint n := Nat.two_pow_pos _

theorem splitPoint_lt {n : Nat} (h : 2 ≤ n) : splitPoint n < n := by
  have : splitPoint n ≤ n - 1 := Nat.log2_self_le (by omega)
  omega

end Log

structure CommitmentLog where
  entries : Array LogEntry
  levels : Tower Hash
deriving DecidableEq

namespace CommitmentLog

open Log

def empty : CommitmentLog := ⟨#[], []⟩

instance : Inhabited CommitmentLog := ⟨empty⟩

def size (log : CommitmentLog) : Nat := log.entries.size

def append (log : CommitmentLog) (entry : LogEntry) : CommitmentLog :=
  ⟨log.entries.push entry, log.levels.push nodeHash (leafHash entry)⟩

/-- The tree hash over the `n` entries from `start` on. -/
def subtree (log : CommitmentLog) (start n : Nat) : Hash :=
  if _ : n = 0 then emptyRoot
  else if isPowerOfTwo n && start % n == 0 then
    (log.levels.node? (Nat.log2 n) (start / n)).getD Hash.zero
  else if _ : n < 2 then Hash.zero
  else
    let k := splitPoint n
    nodeHash (log.subtree start k) (log.subtree (start + k) (n - k))
termination_by n
decreasing_by
  · exact splitPoint_lt (by omega)
  · have := splitPoint_pos n
    omega

def root (log : CommitmentLog) : Hash := log.subtree 0 log.size

def digest (log : CommitmentLog) : LogDigest := ⟨log.root, log.size⟩

/-- The digest the log had when it held `size` entries. -/
def digestAt (log : CommitmentLog) (size : Nat) : Except Error LogDigest :=
  if log.size < size then .error (.invalidRange size log.size)
  else .ok ⟨log.subtree 0 size, size⟩

end CommitmentLog

end KeyTransparency
