import TypedSyntax.Datum
import TypedSyntax.Number.Layout
import TypedSyntax.Yaml.Scalar

/-!
# YAML texts of data

The block-style YAML document of a value. A `Page` holds what is written so
far and what the layout rules ask about the current line.
-/

namespace TypedSyntax.Yaml

/-- A positional number runs from 10⁻⁵ up to 10¹⁶; an exponent has no plus
sign. -/
def numberLayout : FloatLayout := ⟨some (-5), 15, false, .toEven⟩

/-- A document in progress. `spaced` says that the last character separates,
`fresh` that the line holds nothing but indentation and item marks. -/
structure Page where
  text : String
  column : Nat
  spaced : Bool
  fresh : Bool

namespace Page

def start : Page := ⟨"", 0, true, true⟩

def put (page : Page) (c : Char) : Page :=
  { page with text := page.text.push c, column := page.column + 1 }

def putAll (page : Page) (cs : List Char) : Page :=
  cs.foldl put page

/-- Writes a line break of the text as it is. -/
def putBreak (page : Page) (c : Char) : Page :=
  { page with text := page.text.push c, column := 0 }

/-- Goes to a column on a line that holds nothing but indentation. -/
def indentTo (page : Page) (indent : Nat) : Page :=
  let broken :=
    if !page.fresh || indent < page.column || (page.column == indent && !page.spaced) then
      page.putBreak '\n'
    else
      page
  let filled := broken.putAll (List.replicate (indent - broken.column) ' ')
  { filled with spaced := true, fresh := true }

/-- Separates what follows by a space unless the line is separated already. -/
def separate (page : Page) : Page :=
  if page.spaced then page else page.put ' '

/-- Writes the mark of an item, a key or a value at the start of a line. -/
def mark (page : Page) (c : Char) : Page :=
  { page.separate.put c with spaced := false }

/-- Ends a token inside a line. -/
def close (page : Page) : Page :=
  { page with spaced := false, fresh := false }

/-- Writes a token inside a line. -/
def token (page : Page) (cs : List Char) : Page :=
  (page.separate.putAll cs).close

/-- A character between single quotes. A quote is doubled, and the line after
breaks is indented. -/
def putSingleQuoted (indent : Nat) (state : Page × Bool) (c : Char) : Page × Bool :=
  let (page, afterBreak) := state
  if isBreak c then
    ({ page.putBreak c with fresh := true }, true)
  else
    let page := if afterBreak then page.indentTo indent else page
    let page := if c == '\'' then page.put '\'' else page
    ({ page.put c with fresh := false }, false)

def singleQuotedScalar (indent : Nat) (page : Page) (text : List Char) : Page :=
  let opened := (page.separate.put '\'').close
  let (page, afterBreak) := text.foldl (putSingleQuoted indent) (opened, false)
  let page := if afterBreak then page.indentTo indent else page
  (page.put '\'').close

/-- A character of a literal block. Every line that is not empty is
indented. -/
def putLiteral (indent : Nat) (state : Page × Bool) (c : Char) : Page × Bool :=
  let (page, afterBreak) := state
  if isBreak c then
    ({ page.putBreak c with fresh := true }, true)
  else
    let page := if afterBreak then page.indentTo indent else page
    ({ page.put c with fresh := false }, false)

/-- What follows the mark of a literal block: the indentation if the text
starts with a space or a break, and how the breaks at the end count. -/
def literalHints (text : List Char) : List Char :=
  let indentation :=
    match text.head? with
    | some c => if c == ' ' || isBreak c then ['2'] else []
    | none => []
  let ending :=
    match text.reverse with
    | [] => ['-']
    | [c] => if isBreak c then ['+'] else ['-']
    | c :: d :: _ => if !isBreak c then ['-'] else if isBreak d then ['+'] else []
  indentation ++ ending

def literalScalar (indent : Nat) (page : Page) (text : List Char) : Page :=
  let header := page.token ('|' :: literalHints text)
  let opened := { header.putBreak '\n' with spaced := true, fresh := true }
  (text.foldl (putLiteral indent) (opened, true)).1

def doubleQuotedScalar (page : Page) (text : List Char) : Page :=
  page.token ('"' :: text.flatMap doubleQuoted ++ ['"'])

/-- Writes a text whose continuation lines are indented. -/
def scalar (indent : Nat) (simpleKey : Bool) (page : Page) (text : String) : Page :=
  match styleOf text simpleKey with
  | .plain => page.token text.toList
  | .singleQuoted => page.singleQuotedScalar indent text.toList
  | .doubleQuoted => page.doubleQuotedScalar text.toList
  | .literal => page.literalScalar indent text.toList

end Page

/-- The indentation one level further in. The document itself has none. -/
def deeper : Option Nat → Nat
  | none => 0
  | some indent => indent + 2

/-- The indentation of the continuation lines of a scalar. -/
def continuation (indent : Option Nat) : Nat :=
  indent.getD 0 + 2

/-- The indentation of the items of a list. On the line of a key they are not
further in than the key. -/
def itemIndent (indent : Option Nat) (afterKey : Bool) (page : Page) : Nat :=
  match indent with
  | some indent => if afterKey && !page.fresh then indent else indent + 2
  | none => 0

mutual

/-- Writes a value inside a collection with the given indentation. -/
def write (indent : Option Nat) (afterKey : Bool) (page : Page) : Datum → Page
  | .bool true => page.token "true".toList
  | .bool false => page.token "false".toList
  | .int i =>
    if Datum.fitsWord i then page.token (toString i).toList
    else page.scalar (continuation indent) false (toString i)
  | .float x =>
    if x.isFinite then page.token (numberLayout.text x).toList
    else page.scalar (continuation indent) false (Datum.nonFiniteName x)
  | .text s => page.scalar (continuation indent) false s
  | .list [] => page.token ['[', ']']
  | .list (item :: items) => writeItems (itemIndent indent afterKey page) page (item :: items)
  | .map [] => page.token ['{', '}']
  | .map (entry :: entries) => writeEntries (deeper indent) page (entry :: entries)

/-- Writes the items of a list, each after a dash. -/
def writeItems (indent : Nat) (page : Page) : List Datum → Page
  | [] => page
  | item :: items =>
    writeItems indent (write (some indent) false ((page.indentTo indent).mark '-') item) items

/-- Writes the entries of a map. A key that is not simple stands after a
question mark, and its value on a line of its own. -/
def writeEntries (indent : Nat) (page : Page) : List (String × Datum) → Page
  | [] => page
  | (key, value) :: entries =>
    let line := page.indentTo indent
    let keyed :=
      if isSimpleKey key then
        ((line.scalar (continuation (some indent)) true key).put ':').close
      else
        let explicit := (line.mark '?').scalar (continuation (some indent)) false key
        (explicit.indentTo indent).mark ':'
    writeEntries indent (write (some indent) true keyed value) entries

end

end TypedSyntax.Yaml

namespace TypedSyntax.Datum

/-- The YAML document. -/
def yaml (d : Datum) : String :=
  ((Yaml.write none false .start d).indentTo 0).text

end TypedSyntax.Datum
