import KeyTransparency.Hash
import KeyTransparency.Bits
import KeyTransparency.Wire.Json

/-!
Codecs: how values travel.

A codec writes and reads a type in two formats.  In the binary format numbers have a fixed width, low
byte first, a list stands behind its length, an option behind a byte 0 or 1 and an alternative behind
its index; what follows the value is left over.  In JSON a record is an object or the list of all its
fields, an alternative an object with one member, and an alternative without content also its bare
name.  How hashes, bit strings and byte strings look in JSON is a parameter (`JsonForm`).

Reading JSON, a missing member stands for the field's value if it has one (an absent option); unknown
members are ignored and repeated ones refused; values may be nested 127 deep.
-/

namespace KeyTransparency

/-- The JSON forms of the three kinds of byte string. -/
structure JsonForm where
  hash : Hash → Json
  hash? : Json → Option Hash
  bits : Bits → Json
  bits? : Json → Option Bits
  bytes : Bytes → Json
  bytes? : Json → Option Bytes

structure Codec (α : Type) where
  write : α → Bytes
  read : Bytes → Option (α × Bytes)
  toJson : JsonForm → α → Json
  /-- Reads a value nested in at most `depth - 1` further levels. -/
  ofJson : JsonForm → (depth : Nat) → Json → Option α

namespace Codec

/-- How deep the reader may go; each array and object takes one level and the last is refused. -/
def nestingLimit : Nat := 128

/-- The items of an array, with the depth left inside it. -/
def enterArray? (depth : Nat) : Json → Option (List Json × Nat)
  | .array items => if depth ≤ 1 then none else some (items, depth - 1)
  | _ => none

/-- The members of an object with readable names, with the depth left inside it. -/
def enterObject? (depth : Nat) : Json → Option (List (String × Json) × Nat)
  | .object members =>
    if depth ≤ 1 then none
    else do
      let named ← members.mapM fun (m : Option String × Json) => m.1.map fun name => (name, m.2)
      pure (named, depth - 1)
  | _ => none

/-! ## Numbers and byte strings -/

/-- A natural number of `width` bytes. -/
def nat (width : Nat) : Codec Nat where
  write n := Bytes.littleEndian width n
  read bytes := (Bytes.split? width bytes).map fun (digits, rest) => (Bytes.ofLittleEndian digits, rest)
  toJson _ n := Json.ofNat n
  ofJson _ _ j := j.nat?.filter (· < Bytes.bound width)

def word : Codec UInt64 where
  write n := (nat 8).write n.toNat
  read bytes := ((nat 8).read bytes).map fun (n, rest) => (UInt64.ofNat n, rest)
  toJson form n := (nat 8).toJson form n.toNat
  ofJson form depth j := ((nat 8).ofJson form depth j).map UInt64.ofNat

def bool : Codec Bool where
  write b := [if b then 1 else 0]
  read
    | 0 :: rest => some (false, rest)
    | 1 :: rest => some (true, rest)
    | _ => none
  toJson _ b := .bool b
  ofJson
    | _, _, .bool b => some b
    | _, _, _ => none

def hash : Codec Hash where
  write h := h.bytes
  read bytes := do
    let (front, rest) ← Bytes.split? 32 bytes
    pure (← Hash.ofBytes? front, rest)
  toJson form h := form.hash h
  ofJson form depth j := if depth ≤ 1 then none else form.hash? j

/-- A byte string behind its length. -/
def readFramed (bytes : Bytes) : Option (Bytes × Bytes) := do
  let (n, rest) ← (nat 8).read bytes
  Bytes.split? n rest

def bits : Codec Bits where
  write b := Hash.framed b
  read := readFramed
  toJson form b := form.bits b
  ofJson form depth j := if depth ≤ 1 then none else form.bits? j

def bytes : Codec Bytes where
  write b := Hash.framed b
  read := readFramed
  toJson form b := form.bytes b
  ofJson form depth j := if depth ≤ 1 then none else form.bytes? j

/-! ## Lists, options and equivalent types -/

/-- `n` values in a row. -/
def readMany {α : Type} (read : Bytes → Option (α × Bytes)) : (n : Nat) → Bytes →
    Option (List α × Bytes)
  | 0, bytes => some ([], bytes)
  | n + 1, bytes => do
    let (a, rest) ← read bytes
    let (as, rest) ← readMany read n rest
    pure (a :: as, rest)

def list {α : Type} (item : Codec α) : Codec (List α) where
  write as := Bytes.littleEndian 8 as.length ++ as.flatMap item.write
  read bytes := do
    let (n, rest) ← (nat 8).read bytes
    readMany item.read n rest
  toJson form as := .array (as.map (item.toJson form))
  ofJson form depth j := do
    let (items, depth) ← enterArray? depth j
    items.mapM (item.ofJson form depth)

def pair {α : Type} (item : Codec α) : Codec (α × α) where
  write := fun (a, b) => item.write a ++ item.write b
  read bytes := do
    let (a, rest) ← item.read bytes
    let (b, rest) ← item.read rest
    pure ((a, b), rest)
  toJson := fun form (a, b) => .array [item.toJson form a, item.toJson form b]
  ofJson form depth j := do
    let (items, depth) ← enterArray? depth j
    match items with
    | [a, b] => pure (← item.ofJson form depth a, ← item.ofJson form depth b)
    | _ => none

def option {α : Type} (item : Codec α) : Codec (Option α) where
  write
    | none => [0]
    | some a => 1 :: item.write a
  read
    | 0 :: rest => some (none, rest)
    | 1 :: rest => (item.read rest).map fun (a, rest) => (some a, rest)
    | _ => none
  toJson
    | _, none => .null
    | form, some a => item.toJson form a
  ofJson
    | _, _, .null => some none
    | form, depth, j => (item.ofJson form depth j).map some

def iso {α β : Type} (codec : Codec α) (make : α → β) (parts : β → α) : Codec β where
  write b := codec.write (parts b)
  read bytes := (codec.read bytes).map fun (a, rest) => (make a, rest)
  toJson form b := codec.toJson form (parts b)
  ofJson form depth j := (codec.ofJson form depth j).map make

def array {α : Type} (item : Codec α) : Codec (Array α) := (list item).iso List.toArray Array.toList

/-! ## Records -/

/-- The fields of a record, as nested pairs. -/
structure Fields (α : Type) where
  names : List String
  write : α → Bytes
  read : Bytes → Option (α × Bytes)
  toMembers : JsonForm → α → List (String × Json)
  ofMembers : JsonForm → (depth : Nat) → List (String × Json) → Option α
  /-- Reads the fields in order; `openEnded` lets the last ones be missing. -/
  ofItems : JsonForm → (depth : Nat) → (openEnded : Bool) → List Json → Option α

def noFields : Fields Unit where
  names := []
  write _ := []
  read bytes := some ((), bytes)
  toMembers _ _ := []
  ofMembers _ _ _ := some ()
  ofItems _ _ _ items := if items.isEmpty then some () else none

/-- One more field in front; `absent` is its value where the member is missing. -/
def field {α β : Type} (name : String) (codec : Codec α) (absent : Option α) (more : Fields β) :
    Fields (α × β) where
  names := name :: more.names
  write := fun (a, b) => codec.write a ++ more.write b
  read bytes := do
    let (a, rest) ← codec.read bytes
    let (b, rest) ← more.read rest
    pure ((a, b), rest)
  toMembers := fun form (a, b) => (name, codec.toJson form a) :: more.toMembers form b
  ofMembers form depth members := do
    let a ←
      match members.filter (·.1 = name) with
      | [] => absent
      | [(_, j)] => codec.ofJson form depth j
      | _ => none
    pure (a, ← more.ofMembers form depth members)
  ofItems form depth openEnded
    | [] => do if openEnded then pure (← absent, ← more.ofItems form depth openEnded []) else none
    | j :: items => do pure (← codec.ofJson form depth j, ← more.ofItems form depth openEnded items)

/-- A field that must be there. -/
def required {α β : Type} (name : String) (codec : Codec α) (more : Fields β) : Fields (α × β) :=
  field name codec none more

/-- A field that may be missing or null. -/
def optional {α β : Type} (name : String) (codec : Codec α) (more : Fields β) :
    Fields (Option α × β) :=
  field name (option codec) (some none) more

def recordWith {α : Type} (openEnded : Bool) (fields : Fields α) : Codec α where
  write := fields.write
  read := fields.read
  toJson form a := .ofMembers (fields.toMembers form a)
  ofJson form depth j :=
    match j with
    | .array _ => do
      let (items, depth) ← enterArray? depth j
      fields.ofItems form depth openEnded items
    | _ => do
      let (members, depth) ← enterObject? depth j
      fields.ofMembers form depth members

def record {α : Type} (fields : Fields α) : Codec α := recordWith false fields

/-! ## Alternatives -/

/-- One alternative of a type. -/
structure Case (α : Type) where
  name : String
  /-- The content, if the value is of this case. -/
  write? : α → Option Bytes
  read : Bytes → Option (α × Bytes)
  toJson? : JsonForm → α → Option Json
  ofJson : JsonForm → (depth : Nat) → Json → Option α
  /-- The value where the case has no content. -/
  bare : Option α

/-- An alternative without content. -/
def unit {α : Type} [DecidableEq α] (name : String) (value : α) : Case α where
  name
  write? a := if a = value then some [] else none
  read bytes := some (value, bytes)
  toJson? _ a := if a = value then some .null else none
  ofJson
    | _, _, .null => some value
    | _, _, _ => none
  bare := some value

def alternative {α β : Type} (name : String) (content : Codec β) (make : β → α)
    (content? : α → Option β) : Case α where
  name
  write? a := (content? a).map content.write
  read bytes := (content.read bytes).map fun (b, rest) => (make b, rest)
  toJson? form a := (content? a).map (content.toJson form)
  ofJson form depth j := (content.ofJson form depth j).map make
  bare := none

def writeCase {α : Type} (a : α) : (index : Nat) → List (Case α) → Bytes
  | _, [] => []
  | index, c :: cases =>
    match c.write? a with
    | some content => Bytes.littleEndian 4 index ++ content
    | none => writeCase a (index + 1) cases

def choice {α : Type} (cases : List (Case α)) : Codec α where
  write a := writeCase a 0 cases
  read bytes := do
    let (index, rest) ← (nat 4).read bytes
    (← cases[index]?).read rest
  toJson form a :=
    match cases.findSome? fun c => (c.toJson? form a).map fun j => (c, j) with
    | none => .null
    | some (c, j) => if c.bare.isSome then .ofString c.name else .ofMembers [(c.name, j)]
  ofJson form depth j :=
    match j with
    | .string text => do (← cases.find? (some ·.name = text)).bare
    | _ => do
      match ← enterObject? depth j with
      | ([(name, content)], depth) => (← cases.find? (·.name = name)).ofJson form depth content
      | _ => none

/-! ## Texts -/

/-- The text that a byte string has when it is written as a list of numbers. -/
def numberList (bytes : Bytes) : Json := .array (bytes.map fun b => Json.ofNat b.toNat)

def ofNumberList? : Json → Option Bytes
  | .array items =>
    items.mapM fun j => (j.nat?.filter (· < 256)).map UInt8.ofNat
  | _ => none

/-- Hashes, bit strings and byte strings all as lists of numbers. -/
def numberForm : JsonForm where
  hash h := numberList h.bytes
  hash? j := (ofNumberList? j).bind Hash.ofBytes?
  bits := numberList
  bits? := ofNumberList?
  bytes := numberList
  bytes? := ofNumberList?

def toText {α : Type} (codec : Codec α) (a : α) : String := (codec.toJson numberForm a).compress

def ofText? {α : Type} (codec : Codec α) (text : Bytes) : Option α :=
  (Json.parse? text).bind (codec.ofJson numberForm nestingLimit)

def ofBinary? {α : Type} (codec : Codec α) (bytes : Bytes) : Option α :=
  (codec.read bytes).map Prod.fst

end Codec

end KeyTransparency
