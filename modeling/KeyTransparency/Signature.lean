import KeyTransparency.Error

/-!
Signature schemes.

The directory and its clients use a scheme through two questions: whether some bytes are a key, and
whether a key accepts a signature of a message.  Nothing they guarantee depends on which scheme it
is.
-/

namespace KeyTransparency

structure SignatureScheme where
  /-- Whether 32 bytes are a verifying key. -/
  isKey : Bytes → Bool
  /-- Whether the 64 bytes of `signature` sign `message` under `key`. -/
  accepts : (key message signature : Bytes) → Bool

/-- A scheme that also signs; secrets are 32 bytes. -/
structure SigningScheme extends SignatureScheme where
  publicKey : (secret : Bytes) → Bytes
  sign : (secret message : Bytes) → Bytes

namespace SignatureScheme

variable (scheme : SignatureScheme)

/-- Refuses bytes that are not a verifying key. -/
def checkKey (key : Bytes) : Except Error Unit :=
  if key.length ≠ 32 then .error (.proofInvalid .signature .keyLength)
  else if scheme.isKey key then .ok ()
  else .error (.proofInvalid .signature .keyNotOnCurve)

def verify (key message signature : Bytes) : Except Error Unit :=
  if signature.length ≠ 64 then .error (.proofInvalid .signature .signatureMalformed)
  else if scheme.accepts key message signature then .ok ()
  else .error (.proofInvalid .signature .signatureRefused)

end SignatureScheme

end KeyTransparency
