import KeyTransparency.Bits

/-!
What is published under an identifier.

A value is committed to together with its identifier, the owner's signature and the position it
took in its partition.  A user's master key and public keys live under two identifiers made from
the user name.
-/

namespace KeyTransparency

/-- One value in a leaf: its commitment and its position. -/
structure ValueEntry where
  hash : Hash
  position : UInt64
deriving DecidableEq, Inhabited

/-- A value as its owner submitted it. -/
structure ValueRecord where
  position : UInt64
  value : Bytes
  signature : Bytes
deriving DecidableEq, Inhabited

def contentHash (identifier value signature : Bytes) (position : UInt64) : Hash :=
  Hash.ofParts .content [identifier, value, signature, Bytes.bigEndian64 position]

/-- The leaf entry that commits to this record under `identifier`. -/
def ValueRecord.entry (record : ValueRecord) (identifier : Bytes) : ValueEntry :=
  ⟨contentHash identifier record.value record.signature record.position, record.position⟩

/-- What the owner signs for a public key: the value and the position it is meant for. -/
def signedPayload (value : Bytes) (position : UInt64) : Bytes :=
  value ++ Bytes.bigEndian64 position

def masterKeyIdentifier (username : Bytes) : Bytes := username ++ Bytes.ofString "MK"

def publicKeyIdentifier (username : Bytes) : Bytes := username ++ Bytes.ofString "PK"

end KeyTransparency
