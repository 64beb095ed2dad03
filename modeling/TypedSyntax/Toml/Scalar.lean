import TypedSyntax.Literal.Temporal
import TypedSyntax.Number.Finite
import TypedSyntax.Toml.Table

/-!
# TOML keys and scalars

Readers for the parts of a TOML line. Each takes the rest of the text and
returns what it read with what follows.
-/

namespace TypedSyntax.Toml

def isBlank (c : Char) : Bool :=
  c == ' ' || c == '\t'

def skipBlanks (text : List Char) : List Char :=
  text.dropWhile isBlank

/-- Characters of comments and of strings on one line. -/
def isPrintable (c : Char) : Bool :=
  c == '\t' || (decide (0x20 ≤ c.toNat) && c.toNat != 0x7f)

/-- Reads a line end: a line feed, or a carriage return with a line feed. -/
def newline? : List Char → Option (List Char)
  | '\n' :: rest => some rest
  | '\r' :: '\n' :: rest => some rest
  | _ => none

/-- The rest of a line after a value: blanks, a comment and the line end. -/
def lineEnd? (text : List Char) : Option (List Char) :=
  let rest :=
    match skipBlanks text with
    | '#' :: comment => comment.dropWhile isPrintable
    | rest => rest
  if rest.isEmpty then some [] else newline? rest

/-- Blanks, comments and line ends, with fuel for each step. -/
def skipLines : (fuel : Nat) → List Char → List Char
  | 0, text => text
  | fuel + 1, text =>
    match skipBlanks text with
    | '#' :: comment =>
      match newline? (comment.dropWhile isPrintable) with
      | some rest => skipLines fuel rest
      | none => '#' :: comment
    | other =>
      match newline? other with
      | some rest => skipLines fuel rest
      | none => other

/-- The character whose number `count` hexadecimal digits write. -/
def codePoint? (count : Nat) (text : List Char) : Option (Char × List Char) := do
  let digits ← (text.take count).mapM Text.hexValue?
  let n := Text.ofDigits 16 digits
  if digits.length = count ∧ n.isValidChar then some (Char.ofNat n, text.drop count) else none

/-- The character of an escape, after its backslash. -/
def escape? : List Char → Option (Char × List Char)
  | 'b' :: rest => some ('\x08', rest)
  | 't' :: rest => some ('\t', rest)
  | 'n' :: rest => some ('\n', rest)
  | 'f' :: rest => some ('\x0c', rest)
  | 'r' :: rest => some ('\r', rest)
  | '"' :: rest => some ('"', rest)
  | '\\' :: rest => some ('\\', rest)
  | 'u' :: rest => codePoint? 4 rest
  | 'U' :: rest => codePoint? 8 rest
  | _ => none

/-- A string on one line, after its opening quote. Escapes count in basic
strings only. -/
def lineString? (quote : Char) : (fuel : Nat) → List Char → Option (List Char × List Char)
  | 0, _ => none
  | _ + 1, [] => none
  | fuel + 1, c :: rest =>
    if c = quote then some ([], rest)
    else if c = '\\' ∧ quote = '"' then do
      let (e, rest) ← escape? rest
      let (cs, after) ← lineString? quote fuel rest
      return (e :: cs, after)
    else if isPrintable c then
      (lineString? quote fuel rest).map fun (cs, after) => (c :: cs, after)
    else none

/-- A string over several lines, after its opening quotes. Up to two quotes may
stand inside or at its end, and in basic strings a backslash at the end of a
line joins it to the next text. -/
def blockString? (quote : Char) : (fuel : Nat) → List Char → Option (List Char × List Char)
  | 0, _ => none
  | _ + 1, [] => none
  | fuel + 1, c :: rest =>
    if c = quote then
      let run := (c :: rest).takeWhile (· == quote)
      let after := (c :: rest).dropWhile (· == quote)
      if run.length < 3 then
        (blockString? quote fuel after).map fun (cs, after) => (run ++ cs, after)
      else if run.length ≤ 5 then some (run.drop 3, after)
      else none
    else if c = '\\' ∧ quote = '"' then
      match newline? (skipBlanks rest) with
      | some next =>
        blockString? quote fuel (next.dropWhile fun d => isBlank d || d == '\n')
      | none => do
        let (e, rest) ← escape? rest
        let (cs, after) ← blockString? quote fuel rest
        return (e :: cs, after)
    else
      match newline? (c :: rest) with
      | some next => (blockString? quote fuel next).map fun (cs, after) => ('\n' :: cs, after)
      | none =>
        if isPrintable c then
          (blockString? quote fuel rest).map fun (cs, after) => (c :: cs, after)
        else none

/-- A string value of any kind. A line end right after three opening quotes
does not count. -/
def string? : List Char → Option (List Char × List Char)
  | a :: b :: c :: rest =>
    if a ≠ '"' ∧ a ≠ '\'' then none
    else if b = a ∧ c = a then
      let body := (newline? rest).getD rest
      blockString? a (body.length + 1) body
    else lineString? a (rest.length + 3) (b :: c :: rest)
  | a :: rest => if a = '"' ∨ a = '\'' then lineString? a (rest.length + 1) rest else none
  | [] => none

def isBareKeyChar (c : Char) : Bool :=
  c.isAlphanum || c == '_' || c == '-'

/-- One part of a key. -/
def simpleKey? : List Char → Option (String × List Char)
  | '"' :: rest =>
    (lineString? '"' (rest.length + 1) rest).map fun (cs, after) => (String.ofList cs, after)
  | '\'' :: rest =>
    (lineString? '\'' (rest.length + 1) rest).map fun (cs, after) => (String.ofList cs, after)
  | text =>
    match text.takeWhile isBareKeyChar with
    | [] => none
    | key => some (String.ofList key, text.dropWhile isBareKeyChar)

/-- The parts of a key between dots, with blanks around each. -/
def keyParts? : (fuel : Nat) → List Char → Option (List String × List Char)
  | 0, _ => none
  | fuel + 1, text => do
    let (key, rest) ← simpleKey? (skipBlanks text)
    match skipBlanks rest with
    | '.' :: rest =>
      let (keys, after) ← keyParts? fuel rest
      return (key :: keys, after)
    | after => return ([key], after)

/-- The levels of nesting that a document may have, less one. -/
def maxDepth : Nat := 79

/-- A dotted key of at most `maxDepth` parts. -/
def key? (text : List Char) : Option (List String × List Char) :=
  keyParts? maxDepth text

/-- Digits of a base with single underscores between them. -/
def underscored? (base : Nat) : (fuel : Nat) → List Char → Option (List Nat × List Char)
  | 0, _ => none
  | _ + 1, [] => none
  | fuel + 1, c :: rest =>
    match Text.hexValue? c with
    | none => none
    | some d =>
      if base ≤ d then none
      else
        let next := if rest.head? = some '_' then rest.tail else rest
        match underscored? base fuel next with
        | some (ds, after) => some (d :: ds, after)
        | none => if rest.head? = some '_' then none else some ([d], rest)

/-- An integer that 64 bits hold. -/
def integerItem? (i : Int) : Option Item :=
  if -0x8000000000000000 ≤ i ∧ i < 0x8000000000000000 then some (.integer i) else none

/-- An exponent after its letter, if the text goes on with one. -/
def exponent? : List Char → Option (Option Int × List Char)
  | c :: rest =>
    if c = 'e' ∨ c = 'E' then
      let negative := rest.head? = some '-'
      let unsigned := if negative ∨ rest.head? = some '+' then rest.tail else rest
      (underscored? 10 (unsigned.length + 1) unsigned).map fun (ds, after) =>
        let n : Int := Text.ofDigits 10 ds
        (some (if negative then -n else n), after)
    else some (none, c :: rest)
  | [] => some (none, [])

/-- A decimal integer or float, after its sign. A float is refused if it
rounds to positive infinity. -/
def decimal? (negative : Bool) (text : List Char) : Option (Item × List Char) := do
  let (whole, rest) ←
    match text with
    | '0' :: rest => some ([0], rest)
    | _ => underscored? 10 (text.length + 1) text
  let (fraction, afterPoint) ←
    match rest with
    | '.' :: digits => underscored? 10 (digits.length + 1) digits
    | _ => some ([], rest)
  let (exponent?, after) ← exponent? afterPoint
  if fraction.isEmpty ∧ exponent? = none then
    let n : Int := Text.ofDigits 10 whole
    (integerItem? (if negative then -n else n)).map (·, after)
  else
    let digits := (whole ++ fraction).map Nat.digitChar
    if negative ∨ Double.isFiniteDecimal digits (exponent?.getD 0 - fraction.length) then
      some (.float, after)
    else none

/-- A number, with the words for infinity and NaN. -/
def number? (text : List Char) : Option (Item × List Char) :=
  let negative := text.head? = some '-'
  let signed := negative ∨ text.head? = some '+'
  let unsigned := if signed then text.tail else text
  match unsigned with
  | 'i' :: 'n' :: 'f' :: rest => some (.float, rest)
  | 'n' :: 'a' :: 'n' :: rest => some (.float, rest)
  | '0' :: mark :: digits =>
    let base? := if mark = 'x' then some 16 else if mark = 'o' then some 8
      else if mark = 'b' then some 2 else none
    match base? with
    | some base =>
      if signed then none
      else do
        let (ds, after) ← underscored? base (digits.length + 1) digits
        (integerItem? (Text.ofDigits base ds)).map (·, after)
    | none => decimal? negative unsigned
  | _ => decimal? negative unsigned

/-- A two-digit number up to a limit. -/
def twoDigits? (limit : Nat) (text : List Char) : Option (Nat × List Char) :=
  match Temporal.digits? 2 (text.take 2) with
  | some n => if n ≤ limit then some (n, text.drop 2) else none
  | none => none

/-- Reads one given character. -/
def expect? (c : Char) : List Char → Option (List Char)
  | d :: rest => if d = c then some rest else none
  | [] => none

/-- A calendar day. -/
def date? (text : List Char) : Option (List Char) := do
  let year ← Temporal.digits? 4 (text.take 4)
  let (month, rest) ← twoDigits? 12 (← expect? '-' (text.drop 4))
  let (day, rest) ← twoDigits? 31 (← expect? '-' rest)
  if 1 ≤ month ∧ 1 ≤ day ∧ day ≤ Temporal.daysInMonth year month then some rest else none

/-- A time of day with an optional fraction. The second may be a leap
second. -/
def time? (text : List Char) : Option (List Char) := do
  let (_, rest) ← twoDigits? 23 text
  let (_, rest) ← twoDigits? 59 (← expect? ':' rest)
  let (_, rest) ← twoDigits? 60 (← expect? ':' rest)
  match rest with
  | '.' :: c :: digits =>
    return if c.isDigit then digits.dropWhile Char.isDigit else rest
  | _ => return rest

/-- An optional offset from universal time. -/
def offset? : List Char → Option (List Char)
  | c :: rest =>
    if c = 'Z' ∨ c = 'z' then some rest
    else if c = '+' ∨ c = '-' then do
      let (_, rest) ← twoDigits? 23 rest
      let (_, rest) ← twoDigits? 59 (← expect? ':' rest)
      return rest
    else some (c :: rest)
  | [] => some []

/-- A date, a time, or both with an optional offset. -/
def dateTime? (text : List Char) : Option (List Char) :=
  match date? text with
  | some (c :: rest) =>
    if c = 'T' ∨ c = 't' ∨ c = ' ' then
      match time? rest with
      | some after => offset? after
      | none => some (c :: rest)
    else some (c :: rest)
  | some [] => some []
  | none => time? text

/-- A scalar value. -/
def scalar? (text : List Char) : Option (Item × List Char) :=
  match text with
  | 't' :: 'r' :: 'u' :: 'e' :: rest => some (.boolean true, rest)
  | 'f' :: 'a' :: 'l' :: 's' :: 'e' :: rest => some (.boolean false, rest)
  | '"' :: _ => (string? text).map fun (cs, after) => (.string (String.ofList cs), after)
  | '\'' :: _ => (string? text).map fun (cs, after) => (.string (String.ofList cs), after)
  | _ =>
    match dateTime? text with
    | some after => some (.dateTime, after)
    | none => number? text

end TypedSyntax.Toml
