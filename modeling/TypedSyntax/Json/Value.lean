import TypedSyntax.Text.Digit

/-!
# JSON texts as values

`Value.ofText?` reads a JSON text. Numbers and strings keep the form in which
they were written: whether a number is in range and whether escaped surrogates
pair up is asked only of the values that are used.
-/

namespace TypedSyntax.Json

/-- A character of a string, or a 16-bit unit given by an escape. -/
inductive Piece where
  | char (c : Char)
  | unit (code : Nat)
deriving DecidableEq, Repr

/-- A number as it is written. An empty fraction means that there is none. -/
structure NumberText where
  negative : Bool
  whole : List Nat
  fraction : List Nat
  exponent? : Option Int
deriving DecidableEq, Repr

/-- A JSON value. Objects keep the order of their entries and may repeat keys. -/
inductive Value where
  | null
  | bool (value : Bool)
  | number (text : NumberText)
  | string (pieces : List Piece)
  | list (items : List Value)
  | object (entries : List (List Piece × Value))
deriving Repr, Inhabited

def isBlank (c : Char) : Bool :=
  c == ' ' || c == '\t' || c == '\n' || c == '\r'

def skipBlanks (text : List Char) : List Char :=
  text.dropWhile isBlank

/-- The character of a two-character escape. -/
def simpleEscape? : Char → Option Char
  | '"' => some '"'
  | '\\' => some '\\'
  | '/' => some '/'
  | 'b' => some '\x08'
  | 'f' => some '\x0c'
  | 'n' => some '\n'
  | 'r' => some '\r'
  | 't' => some '\t'
  | _ => none

/-- The rest of a string after its opening quote. Control characters have to
be escaped. -/
def string? : List Char → Option (List Piece × List Char)
  | [] => none
  | '"' :: rest => some ([], rest)
  | '\\' :: 'u' :: a :: b :: c :: d :: rest =>
    match Text.hexValue? a, Text.hexValue? b, Text.hexValue? c, Text.hexValue? d with
    | some a, some b, some c, some d =>
      (string? rest).map fun (pieces, after) =>
        (.unit (Text.ofDigits 16 [a, b, c, d]) :: pieces, after)
    | _, _, _, _ => none
  | '\\' :: c :: rest =>
    match simpleEscape? c with
    | some e => (string? rest).map fun (pieces, after) => (.char e :: pieces, after)
    | none => none
  | c :: rest =>
    if c.toNat < 0x20 then none
    else (string? rest).map fun (pieces, after) => (.char c :: pieces, after)

/-- The digits at the start of a text, and what follows them. -/
def digits (text : List Char) : List Nat × List Char :=
  ((text.takeWhile Char.isDigit).map Text.decimalValue, text.dropWhile Char.isDigit)

/-- An optional fraction of at least one digit. -/
def fraction? : List Char → Option (List Nat × List Char)
  | '.' :: rest =>
    match digits rest with
    | ([], _) => none
    | found => some found
  | rest => some ([], rest)

/-- An optional exponent of at least one digit. -/
def exponent? : List Char → Option (Option Int × List Char)
  | c :: rest =>
    if c = 'e' ∨ c = 'E' then
      let negative := rest.head? = some '-'
      let unsigned := if negative ∨ rest.head? = some '+' then rest.tail else rest
      match digits unsigned with
      | ([], _) => none
      | (ds, after) =>
        let magnitude : Int := Text.ofDigits 10 ds
        some (some (if negative then -magnitude else magnitude), after)
    else
      some (none, c :: rest)
  | [] => some (none, [])

/-- A number. Its whole part has no zero in front. -/
def number? (text : List Char) : Option (NumberText × List Char) := do
  let negative := text.head? = some '-'
  let (whole, rest) := digits (if negative then text.tail else text)
  if whole = [] ∨ (whole.head? = some 0 ∧ 1 < whole.length) then none
  let (fraction, rest) ← fraction? rest
  let (exponent, rest) ← exponent? rest
  return (⟨negative, whole, fraction, exponent⟩, rest)

mutual

/-- A value at the start of a text. Two steps of fuel for each character
suffice. -/
def value? : (fuel : Nat) → List Char → Option (Value × List Char)
  | 0, _ => none
  | fuel + 1, text =>
    match skipBlanks text with
    | 'n' :: 'u' :: 'l' :: 'l' :: rest => some (.null, rest)
    | 't' :: 'r' :: 'u' :: 'e' :: rest => some (.bool true, rest)
    | 'f' :: 'a' :: 'l' :: 's' :: 'e' :: rest => some (.bool false, rest)
    | '"' :: rest => (string? rest).map fun (pieces, after) => (.string pieces, after)
    | '[' :: rest =>
      match skipBlanks rest with
      | ']' :: after => some (.list [], after)
      | _ => (items? fuel rest).map fun (items, after) => (.list items, after)
    | '{' :: rest =>
      match skipBlanks rest with
      | '}' :: after => some (.object [], after)
      | _ => (entries? fuel rest).map fun (entries, after) => (.object entries, after)
    | other => (number? other).map fun (n, after) => (.number n, after)

/-- The items of a list up to its closing bracket, at least one. -/
def items? : (fuel : Nat) → List Char → Option (List Value × List Char)
  | 0, _ => none
  | fuel + 1, text => do
    let (item, rest) ← value? fuel text
    match skipBlanks rest with
    | ',' :: rest =>
      let (items, after) ← items? fuel rest
      return (item :: items, after)
    | ']' :: after => return ([item], after)
    | _ => none

/-- The entries of an object up to its closing brace, at least one. -/
def entries? : (fuel : Nat) → List Char → Option (List (List Piece × Value) × List Char)
  | 0, _ => none
  | fuel + 1, text => do
    match skipBlanks text with
    | '"' :: rest =>
      let (key, rest) ← string? rest
      match skipBlanks rest with
      | ':' :: rest =>
        let (value, rest) ← value? fuel rest
        match skipBlanks rest with
        | ',' :: rest =>
          let (entries, after) ← entries? fuel rest
          return ((key, value) :: entries, after)
        | '}' :: after => return ([(key, value)], after)
        | _ => none
      | _ => none
    | _ => none

end

/-- Reads a whole text, which holds one value and blanks around it. -/
def Value.ofText? (text : String) : Option Value :=
  let chars := text.toList
  match value? (2 * chars.length + 2) chars with
  | some (value, rest) => if (skipBlanks rest).isEmpty then some value else none
  | none => none

/-- The text of a string. Escaped surrogates have to come in pairs. -/
def decode? : List Piece → Option (List Char)
  | [] => some []
  | .char c :: rest => (decode? rest).map (c :: ·)
  | .unit high :: .unit low :: rest =>
    if high < 0xd800 ∨ 0xe000 ≤ high then
      (decode? (.unit low :: rest)).map (Char.ofNat high :: ·)
    else if high < 0xdc00 ∧ 0xdc00 ≤ low ∧ low < 0xe000 then
      (decode? rest).map
        (Char.ofNat (0x10000 + (high - 0xd800) * 0x400 + (low - 0xdc00)) :: ·)
    else
      none
  | .unit code :: rest =>
    if code < 0xd800 ∨ 0xe000 ≤ code then
      (decode? rest).map (Char.ofNat code :: ·)
    else
      none

def stringOf? (pieces : List Piece) : Option String :=
  (decode? pieces).map String.ofList

end TypedSyntax.Json
