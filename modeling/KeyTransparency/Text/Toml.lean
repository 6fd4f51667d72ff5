/-!
Reading TOML documents.

A document is read for its integers and booleans; a value of any other kind is checked and kept as
`other`.  Tables follow the rules on redefinition: a key is set once, a table gets one header, and a
table made by dotted keys or in braces is not opened again by a header.
-/

namespace KeyTransparency.Toml

inductive Value
  | integer (n : Int)
  | boolean (b : Bool)
  | other
deriving DecidableEq, Repr

abbrev Text := List Char

/-! ## Blanks, newlines and comments -/

def isBlank (c : Char) : Bool := c == ' ' || c == '\t'

def skipBlanks (text : Text) : Text := text.dropWhile isBlank

/-- Characters of a comment and, quotes and backslashes apart, of a string. -/
def isPlain (c : Char) : Bool := c == '\t' || (' ' ≤ c && c != '\x7f')

def newline? : Text → Option Text
  | '\n' :: rest => some rest
  | '\r' :: '\n' :: rest => some rest
  | _ => none

def skipComment : Text → Text
  | '#' :: rest => rest.dropWhile isPlain
  | text => text

/-- Blanks and a comment up to the end of the line or of the text. -/
def endOfLine? (text : Text) : Option Text :=
  match skipComment (skipBlanks text) with
  | [] => some []
  | text => newline? text

/-- Blanks, comments and newlines, as between the items of an array. -/
def skipLines : (fuel : Nat) → Text → Text
  | 0, text => text
  | fuel + 1, text =>
    let text := skipBlanks text
    match text with
    | '#' :: _ =>
      let text := skipComment text
      match newline? text with
      | some rest => skipLines fuel rest
      | none => text
    | _ =>
      match newline? text with
      | some rest => skipLines fuel rest
      | none => text

/-! ## Strings -/

def hexValue? (c : Char) : Option Nat :=
  if c.isDigit then some (c.toNat - 48)
  else if 'a' ≤ c ∧ c ≤ 'f' then some (c.toNat - 87)
  else if 'A' ≤ c ∧ c ≤ 'F' then some (c.toNat - 55)
  else none

/-- The character with the code written in `width` hexadecimal digits. -/
def codePoint? (width : Nat) (text : Text) : Option (Char × Text) := do
  let digits := text.take width
  if digits.length < width then none
  else
    let code ← digits.foldlM (fun n c => (hexValue? c).map (n * 16 + ·)) 0
    if code < 0xD800 ∨ (0xE000 ≤ code ∧ code < 0x110000) then
      some (Char.ofNat code, text.drop width)
    else none

/-- What follows a backslash. -/
def escape? : Text → Option (Char × Text)
  | 'b' :: rest => some ('\x08', rest)
  | 't' :: rest => some ('\t', rest)
  | 'n' :: rest => some ('\n', rest)
  | 'f' :: rest => some ('\x0c', rest)
  | 'r' :: rest => some ('\r', rest)
  | '"' :: rest => some ('"', rest)
  | '\\' :: rest => some ('\\', rest)
  | 'u' :: rest => codePoint? 4 rest
  | 'U' :: rest => codePoint? 8 rest
  | _ => none

/-- A string on one line after its opening double quote. -/
def basic? : (fuel : Nat) → Text → Option (Text × Text)
  | 0, _ => none
  | _ + 1, [] => none
  | _ + 1, '"' :: rest => some ([], rest)
  | fuel + 1, '\\' :: rest => do
    let (c, rest) ← escape? rest
    (basic? fuel rest).map fun (cs, rest) => (c :: cs, rest)
  | fuel + 1, c :: rest =>
    if isPlain c then (basic? fuel rest).map fun (cs, rest) => (c :: cs, rest) else none

/-- A string on one line after its opening single quote. -/
def literal? (text : Text) : Option (Text × Text) :=
  let content := text.takeWhile fun c => isPlain c && c != '\''
  match text.drop content.length with
  | '\'' :: rest => some (content, rest)
  | _ => none

/-- The end of a string on several lines: three quotes, after at most two of its content. -/
def closing? (quote : Char) (text : Text) : Option Text :=
  let run := (text.takeWhile (· == quote)).length
  if 3 ≤ run then some (text.drop (min run 5)) else none

/-- The rest of a string on several lines; `escapes` holds between double quotes. -/
def multiline? (quote : Char) (escapes : Bool) : (fuel : Nat) → Text → Option Text
  | 0, _ => none
  | _ + 1, [] => none
  | fuel + 1, c :: rest =>
    match closing? quote (c :: rest) with
    | some rest => some rest
    | none =>
      if escapes ∧ c = '\\' then
        match newline? (skipBlanks rest) with
        | some rest => multiline? quote escapes fuel (rest.dropWhile fun c => isBlank c || c == '\n')
        | none => do
          let (_, rest) ← escape? rest
          multiline? quote escapes fuel rest
      else
        match newline? (c :: rest) with
        | some rest => multiline? quote escapes fuel rest
        | none => if isPlain c then multiline? quote escapes fuel rest else none

/-- The text after a string. -/
def string? (fuel : Nat) (text : Text) : Option Text :=
  match text with
  | '"' :: '"' :: '"' :: rest => multiline? '"' true fuel rest
  | '\'' :: '\'' :: '\'' :: rest => multiline? '\'' false fuel rest
  | '"' :: rest => (basic? fuel rest).map Prod.snd
  | '\'' :: rest => (literal? rest).map Prod.snd
  | _ => none

/-! ## Numbers and dates -/

/-- Digits with single underscores between them. -/
def grouped? (isDigit : Char → Bool) (text : Text) : Option Text :=
  let groups := text.splitOnP (· == '_')
  if groups.all fun g => !g.isEmpty && g.all isDigit then some groups.flatten else none

def decimal (digits : Text) : Nat := digits.foldl (fun n c => n * 10 + (c.toNat - 48)) 0

/-- Integers have 64 bits, one of them for the sign. -/
def inRange (n : Int) : Bool := -9223372036854775808 ≤ n && n ≤ 9223372036854775807

/-- The digits of a decimal number that does not begin with a needless zero. -/
def whole? (text : Text) : Option Text := do
  let digits ← grouped? Char.isDigit text
  match digits with
  | '0' :: _ :: _ => none
  | _ => some digits

/-- A number in another base.  Nothing is added to a number that is out of range already. -/
def radix? (radix : Nat) (text : Text) : Option Value := do
  let digits ← grouped? (fun c => (hexValue? c).any (· < radix)) text
  let n := digits.foldl
    (fun n c => if inRange n then n * radix + ((hexValue? c).getD 0 : Nat) else n) (0 : Int)
  if inRange n then some (.integer n) else none

def unsigned (text : Text) : Text :=
  match text with
  | '+' :: rest => rest
  | '-' :: rest => rest
  | _ => text

def integer? (text : Text) : Option Value :=
  match text with
  | '0' :: 'x' :: rest => radix? 16 rest
  | '0' :: 'o' :: rest => radix? 8 rest
  | '0' :: 'b' :: rest => radix? 2 rest
  | _ => do
    let digits ← whole? (unsigned text)
    if 19 < digits.length then none
    else
      let n : Int := decimal digits
      let n := if text.head? = some '-' then -n else n
      if inRange n then some (.integer n) else none

/-- The digits before the point of the largest 64-bit float. -/
def floatDigits : Nat := 309

/-- Whether `digits * 10^exponent` is above all 64-bit floats, a half of the last place included.  As
that bound is a whole number, the digits behind the point do not matter. -/
def overflows (digits : Text) (exponent : Int) : Bool :=
  let digits := digits.dropWhile (· == '0')
  let magnitude := digits.length + exponent
  let bound := (1 <<< 1024) - (1 <<< 970)
  if digits.isEmpty || magnitude < floatDigits then false
  else if floatDigits < magnitude then true
  else
    let whole := digits.take floatDigits
    bound ≤ decimal whole * Nat.pow 10 (floatDigits - whole.length)

/-- An exponent, of which digits count until it has reached 2^16. -/
def power (digits : Text) : Nat :=
  digits.foldl (fun n c => if n < UInt16.size then n * 10 + (c.toNat - 48) else n) 0

/-- Whether a text is a whole number with a fraction or an exponent or both.  A positive number must
not be too large for a float. -/
def isFloat (text : Text) : Bool :=
  let body := unsigned text
  let isExponent (c : Char) : Bool := c == 'e' || c == 'E'
  let mantissa := body.takeWhile (!isExponent ·)
  let exponent := body.drop mantissa.length
  let before := mantissa.takeWhile (· != '.')
  let fraction := mantissa.drop before.length
  let parts := do
    let whole ← whole? before
    let fraction' ← if fraction.isEmpty then some [] else grouped? Char.isDigit (fraction.drop 1)
    let digits ← if exponent.isEmpty then some [] else grouped? Char.isDigit (unsigned (exponent.drop 1))
    some (whole ++ fraction', fraction'.length, (power digits : Int))
  body == "inf".toList || body == "nan".toList ||
    match parts with
    | none => false
    | some (digits, places, n) =>
      let n := if (exponent.drop 1).head? = some '-' then -n else n
      !(fraction.isEmpty && exponent.isEmpty) &&
        (text.head? = some '-' || !overflows digits (n - places))

/-- A number of exactly `width` digits within bounds. -/
def part? (width low high : Nat) (text : Text) : Option (Nat × Text) :=
  let digits := (text.take width).takeWhile Char.isDigit
  let n := decimal digits
  if digits.length = width ∧ low ≤ n ∧ n ≤ high then some (n, text.drop width) else none

def mark? (c : Char) : Text → Option Text
  | c' :: rest => if c' = c then some rest else none
  | [] => none

def daysIn (year month : Nat) : Nat :=
  if month = 2 then
    if year % 4 = 0 ∧ (year % 100 ≠ 0 ∨ year % 400 = 0) then 29 else 28
  else if month = 4 ∨ month = 6 ∨ month = 9 ∨ month = 11 then 30
  else 31

def date? (text : Text) : Option Text := do
  let (year, rest) ← part? 4 0 9999 text
  let (month, rest) ← part? 2 1 12 (← mark? '-' rest)
  let (_, rest) ← part? 2 1 (daysIn year month) (← mark? '-' rest)
  some rest

def time? (text : Text) : Option Text := do
  let (_, rest) ← part? 2 0 23 text
  let (_, rest) ← part? 2 0 59 (← mark? ':' rest)
  let (_, rest) ← part? 2 0 60 (← mark? ':' rest)
  match rest with
  | '.' :: more =>
    let digits := more.takeWhile Char.isDigit
    if digits.isEmpty then none else some (more.drop digits.length)
  | _ => some rest

/-- Whether a text is nothing, `Z`, or an offset in hours and minutes. -/
def isOffset : Text → Bool
  | [] => true
  | ['Z'] => true
  | ['z'] => true
  | s :: rest =>
    (s == '+' || s == '-') &&
      (do
        let (_, rest) ← part? 2 0 23 rest
        let (_, rest) ← part? 2 0 59 (← mark? ':' rest)
        if rest.isEmpty then some () else none).isSome

def isTimeOnly (text : Text) : Bool := (time? text).any List.isEmpty

/-- Whether a text is a date, perhaps with a time after it, or a time. -/
def isDateTime (text : Text) : Bool :=
  match date? text with
  | some [] => true
  | some (c :: rest) => (c == 'T' || c == 't' || c == ' ') && (time? rest).any isOffset
  | none => isTimeOnly text

def isTokenChar (c : Char) : Bool :=
  c.isAlphanum || c == '+' || c == '-' || c == '.' || c == '_' || c == ':'

/-- A number, a date or a word.  A date goes on after a blank if a digit follows. -/
def token? (text : Text) : Option (Value × Text) :=
  let first := text.takeWhile isTokenChar
  let rest := text.drop first.length
  let token :=
    match date? first, rest with
    | some [], ' ' :: c :: more => if c.isDigit then first ++ ' ' :: (c :: more).takeWhile isTokenChar else first
    | _, _ => first
  let rest := text.drop token.length
  if token = "true".toList then some (.boolean true, rest)
  else if token = "false".toList then some (.boolean false, rest)
  else
    match integer? token with
    | some value => some (value, rest)
    | none => if isFloat token || isDateTime token then some (.other, rest) else none

/-! ## Keys -/

def isBareKey (c : Char) : Bool := c.isAlphanum || c == '_' || c == '-'

def simpleKey? (fuel : Nat) (text : Text) : Option (String × Text) :=
  match text with
  | '"' :: rest => (basic? fuel rest).map fun (cs, rest) => (String.ofList cs, rest)
  | '\'' :: rest => (literal? rest).map fun (cs, rest) => (String.ofList cs, rest)
  | _ =>
    let name := text.takeWhile isBareKey
    if name.isEmpty then none else some (String.ofList name, text.drop name.length)

/-- A dotted key, at least one name long and at most `limit`, and the blanks after it. -/
def key? (fuel : Nat) : (limit : Nat) → Text → Option (List String × Text)
  | 0, _ => none
  | limit + 1, text => do
    let (name, rest) ← simpleKey? fuel (skipBlanks text)
    match skipBlanks rest with
    | '.' :: rest => (key? fuel limit rest).map fun (names, rest) => (name :: names, rest)
    | rest => some ([name], rest)

/-! ## Tables -/

inductive Item
  | value (v : Value)
  /-- `isOpen` until a header has defined the table; `dotted` if dotted keys made it. -/
  | table (isOpen dotted : Bool) (members : List (String × Item))
  /-- The last element of an array of tables. -/
  | tables (members : List (String × Item))

abbrev Members := List (String × Item)

def setMember (members : Members) (name : String) (item : Item) : Members :=
  match members with
  | [] => [(name, item)]
  | (n, i) :: rest => if n = name then (n, item) :: rest else (n, i) :: setMember rest name item

/-- Changes the table at the end of a path, making tables on the way.  Dotted keys must not enter a
table that is defined.  The change also learns whether dotted keys made the table. -/
def editAt (dotted : Bool) (change : (isDotted : Bool) → Members → Option Members) :
    (path : List String) → (isDotted : Bool) → Members → Option Members
  | [], isDotted, members => change isDotted members
  | name :: path, _, members =>
    match members.lookup name with
    | none =>
      (editAt dotted change path dotted []).map fun inner =>
        setMember members name (.table true dotted inner)
    | some (.value _) => none
    | some (.tables inner) =>
      (editAt dotted change path false inner).map fun inner => setMember members name (.tables inner)
    | some (.table isOpen isDotted inner) =>
      if dotted ∧ !isOpen then none
      else
        (editAt dotted change path isDotted inner).map fun inner =>
          setMember members name (.table isOpen isDotted inner)

def splitLast (path : List String) : List String × String := (path.dropLast, path.getLastD "")

/-- Sets a dotted key.  A name by itself goes into a table that dotted keys did not make, and a
dotted one into a table that they did. -/
def setKey (members : Members) (path : List String) (value : Value) : Option Members :=
  let (above, name) := splitLast path
  editAt true (fun isDotted members =>
      if isDotted = above.isEmpty ∨ (members.lookup name).isSome then none
      else some (setMember members name (.value value)))
    above false members

/-- Opens a table by its header. -/
def openTable (root : Members) (path : List String) : Option Members :=
  let (above, name) := splitLast path
  editAt false (fun _ members =>
      match members.lookup name with
      | none => some (setMember members name (.table false false []))
      | some (.table true false inner) => some (setMember members name (.table false false inner))
      | _ => none)
    above false root

/-- Adds an element to an array of tables. -/
def openArrayTable (root : Members) (path : List String) : Option Members :=
  let (above, name) := splitLast path
  editAt false (fun _ members =>
      match members.lookup name with
      | none => some (setMember members name (.tables []))
      | some (.tables _) => some (setMember members name (.tables []))
      | _ => none)
    above false root

/-! ## Values -/

/-- How deep arrays and inline tables nest, and how many names a dotted key has. -/
def nestingLimit : Nat := 79

mutual

/-- A value; `depth` is how many arrays and tables in braces may stand in each other, and `fuel`
bounds the length of strings and arrays. -/
def value? (depth fuel : Nat) (text : Text) : Option (Value × Text) :=
  match text, depth with
  | '"' :: _, _ => (string? fuel text).map fun rest => (.other, rest)
  | '\'' :: _, _ => (string? fuel text).map fun rest => (.other, rest)
  | '[' :: _, 0 => none
  | '\x7b' :: _, 0 => none
  | '[' :: rest, depth + 1 => items? depth fuel rest
  | '\x7b' :: rest, depth + 1 =>
    match skipBlanks rest with
    | '\x7d' :: rest => some (.other, rest)
    | rest => members? depth fuel [] rest
  | _, _ => token? text
termination_by (depth, 0)

/-- The items of an array up to its closing bracket; a comma may stand after the last. -/
def items? (depth : Nat) : (fuel : Nat) → Text → Option (Value × Text)
  | 0, _ => none
  | fuel + 1, text =>
    match skipLines fuel text with
    | ']' :: rest => some (.other, rest)
    | text => do
      let (_, rest) ← value? depth fuel text
      match skipLines fuel rest with
      | ',' :: rest => items? depth fuel rest
      | ']' :: rest => some (.other, rest)
      | _ => none
termination_by fuel => (depth, fuel + 1)

/-- The members of an inline table up to its closing brace.  Such a table stays as it is, so it counts
as a value afterwards. -/
def members? (depth : Nat) : (fuel : Nat) → Members → Text → Option (Value × Text)
  | 0, _, _ => none
  | fuel + 1, members, text => do
    let (path, rest) ← key? fuel nestingLimit text
    let rest ← mark? '=' rest
    let (value, rest) ← value? depth fuel (skipBlanks rest)
    let members ← setKey members path value
    match skipBlanks rest with
    | ',' :: rest => members? depth fuel members rest
    | '\x7d' :: rest => some (.other, rest)
    | _ => none
termination_by fuel => (depth, fuel + 1)

end

/-! ## Documents -/

/-- One line of a document: nothing, a header or a key with its value.  Keys go into the table of the
last header. -/
def line? (fuel : Nat) (root : Members) (header : List String) (text : Text) :
    Option (Members × List String × Text) :=
  match skipBlanks text with
  | '[' :: '[' :: rest => do
    let (path, rest) ← key? fuel nestingLimit rest
    let rest ← mark? ']' (← mark? ']' rest)
    some (← openArrayTable root path, path, ← endOfLine? rest)
  | '[' :: rest => do
    let (path, rest) ← key? fuel nestingLimit rest
    let rest ← mark? ']' rest
    some (← openTable root path, path, ← endOfLine? rest)
  | text =>
    match endOfLine? text with
    | some rest => some (root, header, rest)
    | none => do
      let (path, rest) ← key? fuel nestingLimit text
      let (value, rest) ← value? nestingLimit fuel (skipBlanks (← mark? '=' rest))
      let root ← editAt false (fun _ members => setKey members path value) header false root
      some (root, header, ← endOfLine? rest)

/-- The lines of a document, each with at least one character; what bounds their number also bounds
the length of their parts. -/
def lines? : (fuel : Nat) → Members → (header : List String) → Text → Option Members
  | 0, _, _, _ => none
  | fuel + 1, root, header, text =>
    if text.isEmpty then some root
    else do
      let (root, header, rest) ← line? fuel root header text
      lines? fuel root header rest

/-- The root table of a document.  A byte order mark at its start is skipped. -/
def parse? (document : String) : Option Members :=
  let text := document.toList
  let text := if text.head? = some '\uFEFF' then text.drop 1 else text
  lines? (text.length + 1) [] [] text

end KeyTransparency.Toml
