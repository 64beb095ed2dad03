import TypedSyntax.Toml.Scalar

/-!
# TOML documents

`document?` reads a whole text and returns the entries of its root table.
-/

namespace TypedSyntax.Toml

/-- Sets the entries of an inline table one after the other. -/
def inlineEntries? (pairs : List (List String × Item)) : Option Entries :=
  pairs.foldlM
    (fun entries (path, item) =>
      match path.getLast? with
      | some key => entries.setDotted item path.dropLast key
      | none => none)
    ([] : Entries)

mutual

/-- A value with at most `depth` levels of brackets. -/
def value? (depth : Nat) : (fuel : Nat) → List Char → Option (Item × List Char)
  | 0, _ => none
  | fuel + 1, '[' :: rest =>
    match depth with
    | 0 => none
    | depth + 1 => (items? depth fuel rest).map fun (items, after) => (.array items, after)
  | fuel + 1, '{' :: rest =>
    match depth with
    | 0 => none
    | depth + 1 =>
      match skipBlanks rest with
      | '}' :: after => some (.inline [], after)
      | _ => do
        let (pairs, after) ← pairs? depth fuel rest
        return (.inline (← inlineEntries? pairs), after)
  | _ + 1, text => scalar? text

/-- The items of an array up to its bracket. A comma may follow the last. -/
def items? (depth : Nat) : (fuel : Nat) → List Char → Option (List Item × List Char)
  | 0, _ => none
  | fuel + 1, text =>
    match skipLines text.length text with
    | ']' :: after => some ([], after)
    | start => do
      let (item, rest) ← value? depth fuel start
      match skipLines rest.length rest with
      | ',' :: rest =>
        let (items, after) ← items? depth fuel rest
        return (item :: items, after)
      | ']' :: after => return ([item], after)
      | _ => none

/-- The pairs of an inline table up to its brace, at least one. -/
def pairs? (depth : Nat) : (fuel : Nat) → List Char → Option (List (List String × Item) × List Char)
  | 0, _ => none
  | fuel + 1, text => do
    let (path, rest) ← key? text
    let (item, rest) ← value? depth fuel (skipBlanks (← expect? '=' rest))
    match skipBlanks rest with
    | ',' :: rest =>
      let (pairs, after) ← pairs? depth fuel rest
      return ((path, item) :: pairs, after)
    | '}' :: after => return ([(path, item)], after)
    | _ => none

end

/-- A document in progress: its root table and the path of the open table. -/
structure Progress where
  root : Entries
  path : List String

/-- Opens the table that a header names. -/
def Progress.open? (progress : Progress) (path : List String) (element : Bool) :
    Option Progress := do
  let key ← path.getLast?
  let change := if element then Entries.openElement key else Entries.openTable key
  return ⟨← Entries.within change path.dropLast progress.root, path⟩

/-- Sets a key in the open table. -/
def Progress.set? (progress : Progress) (path : List String) (item : Item) :
    Option Progress := do
  let key ← path.getLast?
  let change := Entries.setDotted item path.dropLast key
  return { progress with root := ← Entries.within change progress.path progress.root }

/-- A header after its first bracket. -/
def header? (progress : Progress) (text : List Char) : Option (Progress × List Char) := do
  let element := text.head? = some '['
  let (path, rest) ← key? (if element then text.tail else text)
  let rest ← expect? ']' rest
  let rest ← if element then expect? ']' rest else some rest
  return (← progress.open? path element, ← lineEnd? rest)

/-- A key with its value. -/
def pair? (progress : Progress) (text : List Char) : Option (Progress × List Char) := do
  let (path, rest) ← key? text
  let start := skipBlanks (← expect? '=' rest)
  let (item, rest) ← value? maxDepth (2 * start.length + 2) start
  return (← progress.set? path item, ← lineEnd? rest)

/-- The lines of a document. Every step uses up at least one character. -/
def lines? : (fuel : Nat) → Progress → List Char → Option Progress
  | 0, progress, text => if text.isEmpty then some progress else none
  | fuel + 1, progress, text =>
    match skipBlanks text with
    | [] => some progress
    | '[' :: rest => do
      let (progress, rest) ← header? progress rest
      lines? fuel progress rest
    | start =>
      match lineEnd? start with
      | some rest => lines? fuel progress rest
      | none => do
        let (progress, rest) ← pair? progress start
        lines? fuel progress rest

/-- Reads a document, which may begin with a byte order mark. -/
def document? (text : String) : Option Entries :=
  let chars :=
    match text.toList with
    | '\ufeff' :: rest => rest
    | chars => chars
  (lines? (chars.length + 1) ⟨[], []⟩ chars).map (·.root)

end TypedSyntax.Toml
