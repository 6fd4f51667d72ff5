import KeyTransparency.Text.Utf8

/-!
JSON values and their text.

A number is kept as it was written and an object as the list of its members, repeated names included:
what a number or a repetition means is for the reader of the value to say.  A string or a name that
is not Unicode text is kept as such (`none`), since only a reader that wants its text must refuse it.
-/

namespace KeyTransparency

inductive Json
  | null
  | bool (value : Bool)
  | number (text : String)
  | string (text : Option String)
  | array (items : List Json)
  | object (members : List (Option String × Json))

namespace Json

instance : Inhabited Json := ⟨null⟩

def ofNat (n : Nat) : Json := number (toString n)

def ofString (s : String) : Json := string (some s)

def ofMembers (members : List (String × Json)) : Json :=
  object (members.map fun (name, value) => (some name, value))

/-- The natural number written without sign, fraction and exponent, if it has at most twenty digits:
no word has more. -/
def nat? : Json → Option Nat
  | number text =>
    if text.length ≤ 20 ∧ text.toList.all Char.isDigit then text.toNat? else none
  | _ => none

def member? (name : String) : Json → Option Json
  | object members => members.lookup (some name)
  | _ => none

/-! ## Printing -/

def escape (c : Char) : String :=
  if c = '"' then "\\\""
  else if c = '\\' then "\\\\"
  else if c = '\n' then "\\n"
  else if c = '\r' then "\\r"
  else if c = '\t' then "\\t"
  else if c = '\x08' then "\\b"
  else if c = '\x0c' then "\\f"
  else if c.toNat < 32 then "\\u00" ++ Bytes.toHex [UInt8.ofNat c.toNat]
  else String.singleton c

def quote (s : String) : String := "\"" ++ String.join (s.toList.map escape) ++ "\""

/-- Texts with a comma between each and the next, in front of what follows.  A text is given by what it
makes of the pieces behind it. -/
def separated : List (List String → List String) → List String → List String
  | [], rest => rest
  | [text], rest => text rest
  | text :: more, rest => text ("," :: separated more rest)

/-- The pieces of the text without blanks, in front of what follows. -/
def pieces : Json → List String → List String
  | null => fun rest => "null" :: rest
  | bool true => fun rest => "true" :: rest
  | bool false => fun rest => "false" :: rest
  | number text => fun rest => text :: rest
  | string text => fun rest => quote (text.getD "\uFFFD") :: rest
  | array items => fun rest => "[" :: separated (items.map pieces) ("]" :: rest)
  | object members =>
    let member : { m // m ∈ members } → List String → List String
      | ⟨(name, value), _⟩ => fun rest => quote (name.getD "\uFFFD") :: ":" :: value.pieces rest
    fun rest => "\x7b" :: separated (members.attach.map member) ("\x7d" :: rest)
termination_by j => sizeOf j
decreasing_by
  all_goals simp_wf
  · rename_i h; have := List.sizeOf_lt_of_mem h; omega
  · rename_i h; have := List.sizeOf_lt_of_mem h; simp at this; omega

/-- The text without blanks. -/
def compress (j : Json) : String := String.join (j.pieces [])

/-- Each item on a line of its own, behind two blanks a level. -/
def block (openText closeText : String) (indent : Nat) (lines : List String) : String :=
  let margin := "".pushn ' ' (2 * indent)
  let lines := lines.map fun line => margin ++ "  " ++ line
  if lines.isEmpty then openText ++ closeText
  else openText ++ "\n" ++ ",\n".intercalate lines ++ "\n" ++ margin ++ closeText

/-- The text with one member or item a line. -/
def pretty (indent : Nat) : Json → String
  | array items => block "[" "]" indent (items.map (pretty (indent + 1)))
  | object members =>
    let member : { m // m ∈ members } → String
      | ⟨(name, value), _⟩ => quote (name.getD "\uFFFD") ++ ": " ++ value.pretty (indent + 1)
    block "\x7b" "\x7d" indent (members.attach.map member)
  | other => other.compress
termination_by j => sizeOf j
decreasing_by
  all_goals simp_wf
  · rename_i h; have := List.sizeOf_lt_of_mem h; omega
  · rename_i h; have := List.sizeOf_lt_of_mem h; simp at this; omega

/-! ## Reading -/

namespace Reader

def isBlank (b : UInt8) : Bool := b == 32 || b == 9 || b == 10 || b == 13

def skipBlanks (bytes : Bytes) : Bytes := bytes.dropWhile isBlank

def isDigit (b : UInt8) : Bool := 48 ≤ b && b ≤ 57

/-- One digit or more. -/
def digits? (bytes : Bytes) : Option (Bytes × Bytes) :=
  match bytes.span isDigit with
  | ([], _) => none
  | some' => some some'

/-- A number without a leading zero before other digits. -/
def number? (bytes : Bytes) : Option (Bytes × Bytes) := do
  let (sign, rest) := if bytes.head? = some 45 then ([45], bytes.drop 1) else ([], bytes)
  let (whole, rest) ← digits? rest
  if whole.length > 1 ∧ whole.head? = some 48 then none
  else
    let (fraction, rest) ←
      if rest.head? = some 46 then
        (digits? (rest.drop 1)).map fun (ds, rest) => (46 :: ds, rest)
      else some ([], rest)
    let (exponent, rest) ←
      match rest with
      | e :: more =>
        if e = 101 ∨ e = 69 then
          let (mark, more) :=
            match more with
            | s :: more' => if s = 43 ∨ s = 45 then ([s], more') else ([], more)
            | [] => ([], more)
          (digits? more).map fun (ds, rest) => (e :: mark ++ ds, rest)
        else some ([], rest)
      | [] => some ([], rest)
    some (sign ++ whole ++ fraction ++ exponent, rest)

def hexValue (digits : Bytes) : Option Nat :=
  digits.foldlM (fun n b => (Bytes.hexValue? b).map fun v => n * 16 + v.toNat) 0

/-- The four digits of an escape. -/
def codeUnit? (bytes : Bytes) : Option (Nat × Bytes) := do
  let (digits, rest) ← Bytes.split? 4 bytes
  pure (← hexValue digits, rest)

def utf8OfCode (code : Nat) : Bytes := Bytes.ofString (String.singleton (Char.ofNat code))

/-- What an escaped code unit and the text after it stand for; half of a pair by itself stands for
nothing. -/
def unescape (unit : Nat) (rest : Bytes) : Option Bytes × Bytes :=
  if 0xD800 ≤ unit ∧ unit < 0xDC00 then
    match rest with
    | 92 :: 117 :: more =>
      match codeUnit? more with
      | some (second, after) =>
        if 0xDC00 ≤ second ∧ second < 0xE000 then
          (some (utf8OfCode (0x10000 + (unit - 0xD800) * 1024 + (second - 0xDC00))), after)
        else (none, rest)
      | none => (none, rest)
    | _ => (none, rest)
  else if 0xDC00 ≤ unit ∧ unit < 0xE000 then (none, rest)
  else (some (utf8OfCode unit), rest)

def simpleEscape? (b : UInt8) : Option UInt8 :=
  if b = 34 ∨ b = 92 ∨ b = 47 then some b
  else if b = 98 then some 8
  else if b = 102 then some 12
  else if b = 110 then some 10
  else if b = 114 then some 13
  else if b = 116 then some 9
  else none

/-- The rest of a string after its opening quote: its bytes, or `none` if an escape in it stands for
nothing, and what follows. -/
def string? : (fuel : Nat) → (acc : Option Bytes) → Bytes → Option (Option Bytes × Bytes)
  | 0, _, _ => none
  | _ + 1, _, [] => none
  | _ + 1, acc, 34 :: rest => some (acc.map List.reverse, rest)
  | fuel + 1, acc, 92 :: 117 :: rest => do
    let (unit, rest) ← codeUnit? rest
    let (bytes, rest) := unescape unit rest
    let acc := do pure ((← bytes).reverse ++ (← acc))
    string? fuel acc rest
  | fuel + 1, acc, 92 :: c :: rest => do
    let b ← simpleEscape? c
    string? fuel (acc.map (b :: ·)) rest
  | fuel + 1, acc, b :: rest => if b < 32 ∨ b = 92 then none else string? fuel (acc.map (b :: ·)) rest

/-- A string after its opening quote. -/
def text? (fuel : Nat) (bytes : Bytes) : Option (Option String × Bytes) := do
  let (content, rest) ← string? fuel (some []) bytes
  pure (content.bind Utf8.decode?, rest)

def word? (word : String) (value : Json) (bytes : Bytes) : Option (Json × Bytes) :=
  let letters := Bytes.ofString word
  if letters.isPrefixOf bytes then some (value, bytes.drop letters.length) else none

mutual

/-- A value after blanks.  `fuel` bounds the number of values and members and the length of strings. -/
def value? : (fuel : Nat) → Bytes → Option (Json × Bytes)
  | 0, _ => none
  | fuel + 1, bytes =>
    let bytes := skipBlanks bytes
    match bytes with
    | [] => none
    | b :: rest =>
      if b = 123 then
        match skipBlanks rest with
        | 125 :: rest => some (object [], rest)
        | rest => (members? fuel rest).map fun (members, rest) => (object members, rest)
      else if b = 91 then
        match skipBlanks rest with
        | 93 :: rest => some (array [], rest)
        | rest => (items? fuel rest).map fun (items, rest) => (array items, rest)
      else if b = 34 then (text? fuel rest).map fun (text, rest) => (string text, rest)
      else if b = 116 then word? "true" (bool true) bytes
      else if b = 102 then word? "false" (bool false) bytes
      else if b = 110 then word? "null" null bytes
      else (number? bytes).map fun (digits, rest) => (number (Utf8.decodeLossy digits), rest)

/-- The items of an array up to its closing bracket. -/
def items? : (fuel : Nat) → Bytes → Option (List Json × Bytes)
  | 0, _ => none
  | fuel + 1, bytes => do
    let (item, rest) ← value? fuel bytes
    match skipBlanks rest with
    | 44 :: rest => (items? fuel rest).map fun (items, rest) => (item :: items, rest)
    | 93 :: rest => some ([item], rest)
    | _ => none

/-- The members of an object up to its closing brace. -/
def members? : (fuel : Nat) → Bytes → Option (List (Option String × Json) × Bytes)
  | 0, _ => none
  | fuel + 1, bytes => do
    match skipBlanks bytes with
    | 34 :: rest =>
      let (name, rest) ← text? fuel rest
      match skipBlanks rest with
      | 58 :: rest =>
        let (value, rest) ← value? fuel rest
        let member := (name, value)
        match skipBlanks rest with
        | 44 :: rest => (members? fuel rest).map fun (members, rest) => (member :: members, rest)
        | 125 :: rest => some ([member], rest)
        | _ => none
      | _ => none
    | _ => none

end

end Reader

/-- Reads one value that takes up all of the text but blanks. -/
def parse? (bytes : Bytes) : Option Json := do
  let (value, rest) ← Reader.value? (2 * bytes.length + 2) bytes
  if (Reader.skipBlanks rest).isEmpty then some value else none

end Json

end KeyTransparency
