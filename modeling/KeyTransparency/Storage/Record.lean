import KeyTransparency.Value
import KeyTransparency.Wire.Codec

/-!
How the records of an identifier are written: one binary list, the newest record first.
-/

namespace KeyTransparency

namespace ValueRecord

open Codec

def codec : Codec ValueRecord :=
  (record
      (required "position" word
        (required "value" bytes
          (required "signature" bytes noFields)))).iso
    (fun (position, value, signature, ()) => ⟨position, value, signature⟩)
    (fun r => (r.position, r.value, r.signature, ()))

def listCodec : Codec (List ValueRecord) := list codec

def encodeList (records : List ValueRecord) : Bytes := listCodec.write records

def decodeList? (data : Bytes) : Option (List ValueRecord) := listCodec.ofBinary? data

end ValueRecord

end KeyTransparency
