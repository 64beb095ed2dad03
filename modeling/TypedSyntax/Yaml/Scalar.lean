import TypedSyntax.Number.Finite
import TypedSyntax.Text.Digit

/-!
# YAML scalars

How a text is written as a YAML scalar: as a literal block if it has more than
one line, between single quotes if it would be read as null, a truth value or
a number, and plainly otherwise; each choice falls back to a stricter one when
the text does not allow it.
-/

namespace TypedSyntax.Yaml

def isBreak (c : Char) : Bool :=
  c == '\r' || c == '\n' || c == '\x85' || c == '\u2028' || c == '\u2029'

def isBlank (c : Char) : Bool :=
  c == ' ' || c == '\t'

/-- A blank, a break or the end of the text. -/
def isGap (c? : Option Char) : Bool :=
  c?.all fun c => isBlank c || isBreak c || c == '\x00'

/-- Characters that may stand outside double quotes. -/
def isPrintable (c : Char) : Bool :=
  let n := c.toNat
  c == '\n' || (decide (0x20 ≤ n) && decide (n ≤ 0x7e)) ||
    (decide (0xa0 ≤ n) && n != 0xfeff && n != 0xfffe && n != 0xffff)

/-- Whether a list of characters writes a number of a base below a bound. -/
def isBelow (base bound : Nat) (digits : List Char) : Bool :=
  match digits.mapM Text.hexValue? with
  | some values =>
    !values.isEmpty && values.all (· < base) && decide (Text.ofDigits base values < bound)
  | none => false

/-- Numbers in base 16, 8 or 2 that 128 bits hold. -/
def isBasedInteger (text : List Char) : Bool :=
  let bound := if text.head? = some '-' then Nat.pow 2 127 + 1 else Nat.pow 2 128
  let unsigned := if text.head? = some '-' ∨ text.head? = some '+' then text.tail else text
  match unsigned with
  | '0' :: 'x' :: digits => isBelow 16 bound digits
  | '0' :: 'o' :: digits => isBelow 8 bound digits
  | '0' :: 'b' :: digits => isBelow 2 bound digits
  | _ => false

/-- Decimal numbers with an optional sign, point and exponent whose nearest
double is finite. -/
def isDecimal (text : List Char) : Bool :=
  let unsigned := if text.head? = some '-' ∨ text.head? = some '+' then text.tail else text
  let whole := unsigned.takeWhile Char.isDigit
  let rest := unsigned.dropWhile Char.isDigit
  let fraction := if rest.head? = some '.' then rest.tail.takeWhile Char.isDigit else []
  let rest := if rest.head? = some '.' then rest.tail.dropWhile Char.isDigit else rest
  if whole.isEmpty ∧ fraction.isEmpty then false
  else
    match rest with
    | [] => Double.isFiniteDecimal (whole ++ fraction) (-fraction.length)
    | e :: rest =>
      let negative := rest.head? = some '-'
      let digits := if negative ∨ rest.head? = some '+' then rest.tail else rest
      if (e = 'e' ∨ e = 'E') ∧ !digits.isEmpty ∧ digits.all Char.isDigit then
        let n : Int := Text.ofDecimal digits
        Double.isFiniteDecimal (whole ++ fraction) ((if negative then -n else n) - fraction.length)
      else
        false

/-- A zero followed by further digits, with an optional sign. -/
def isPaddedNumber (text : List Char) : Bool :=
  let unsigned := if text.head? = some '-' ∨ text.head? = some '+' then text.tail else text
  unsigned.head? = some '0' && decide (1 < unsigned.length) && unsigned.all Char.isDigit

/-- The words for null, truth values and doubles that are not finite. -/
def reservedWords : List String :=
  ["", "null", "Null", "NULL", "~", "true", "True", "TRUE", "false", "False", "FALSE",
    ".inf", ".Inf", ".INF", "+.inf", "+.Inf", "+.INF", "-.inf", "-.Inf", "-.INF",
    ".nan", ".NaN", ".NAN"]

/-- Whether a plain scalar of this text could be read as something else than a
text. -/
def isAmbiguous (text : String) : Bool :=
  reservedWords.contains text ||
    isBasedInteger text.toList || isDecimal text.toList || isPaddedNumber text.toList

/-- What the characters of a text allow. -/
structure Analysis where
  multiline : Bool
  plain : Bool
  singleQuoted : Bool
  block : Bool
deriving DecidableEq, Repr

/-- Characters that have a meaning at the start of a plain scalar. -/
def isIndicator (c : Char) : Bool :=
  ['#', ',', '[', ']', '{', '}', '&', '*', '!', '|', '>', '\'', '"', '%', '@', '`'].contains c

/-- Whether the first character of a plain scalar would have a meaning. -/
def startsWithIndicator : List Char → Bool
  | [] => false
  | c :: rest =>
    isIndicator c || ((c == '?' || c == ':' || c == '-') && isGap rest.head?)

/-- Whether a mapping value or a comment would begin after the first
character. -/
def hasInnerIndicator : List Char → Bool
  | a :: b :: rest =>
    (b == ':' && isGap rest.head?) || (b == '#' && isGap (some a)) ||
      hasInnerIndicator (b :: rest)
  | _ => false

/-- Whether some character with property `p` is followed by one with `q`. -/
def hasPair (p q : Char → Bool) : List Char → Bool
  | a :: b :: rest => (p a && q b) || hasPair p q (b :: rest)
  | _ => false

/-- Decides which styles a text allows. -/
def analyse (text : List Char) : Analysis :=
  if text.isEmpty then ⟨false, true, true, false⟩
  else
    let isSpace := (· == ' ')
    let marker := text.take 3 == ['-', '-', '-'] || text.take 3 == ['.', '.', '.']
    let indicators := marker || startsWithIndicator text || hasInnerIndicator text
    let special := text.any (!isPrintable ·)
    let multiline := text.any isBreak
    let trailingSpace := text.getLast? == some ' '
    let edge := text.head? == some ' ' || trailingSpace
    let breakSpace := hasPair isBreak isSpace text
    let spaceBreak := hasPair isSpace isBreak text
    { multiline
      plain := !indicators && !special && !multiline && !edge
      singleQuoted := !breakSpace && !spaceBreak && !special
      block := !trailingSpace && !spaceBreak && !special }

inductive ScalarStyle where
  | plain
  | singleQuoted
  | doubleQuoted
  | literal
deriving DecidableEq, Repr

/-- The style of a text. A literal block cannot be the key on the line of its
value. -/
def styleOf (text : String) (simpleKey : Bool) : ScalarStyle :=
  let allowed := analyse text.toList
  if text.toList.contains '\n' then
    if allowed.block && !simpleKey then .literal else .doubleQuoted
  else if allowed.plain && !isAmbiguous text then .plain
  else if allowed.singleQuoted then .singleQuoted
  else .doubleQuoted

/-- Whether a key may stand on the line of its value: one line of at most 128
bytes. -/
def isSimpleKey (text : String) : Bool :=
  !text.toList.any isBreak && decide (text.utf8ByteSize ≤ 128)

/-- The last `width` hexadecimal digits of a number. -/
def upperHex (width n : Nat) : List Char :=
  (List.range width).reverse.map fun i => Text.upperHex (n / Nat.pow 16 i % 16)

/-- The escape of a character between double quotes. -/
def escape (c : Char) : List Char :=
  '\\' ::
    match c with
    | '\x00' => ['0']
    | '\x07' => ['a']
    | '\x08' => ['b']
    | '\t' => ['t']
    | '\n' => ['n']
    | '\x0b' => ['v']
    | '\x0c' => ['f']
    | '\r' => ['r']
    | '\x1b' => ['e']
    | '"' => ['"']
    | '\\' => ['\\']
    | '\x85' => ['N']
    | '\xa0' => ['_']
    | '\u2028' => ['L']
    | '\u2029' => ['P']
    | c =>
      if c.toNat < 0x100 then 'x' :: upperHex 2 c.toNat
      else if c.toNat < 0x10000 then 'u' :: upperHex 4 c.toNat
      else 'U' :: upperHex 8 c.toNat

/-- A character between double quotes. -/
def doubleQuoted (c : Char) : List Char :=
  if !isPrintable c || isBreak c || c == '"' || c == '\\' then escape c else [c]

end TypedSyntax.Yaml
