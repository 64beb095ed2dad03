import TypedSyntax.Error
import TypedSyntax.Json.Printer
import TypedSyntax.Json.Record
import TypedSyntax.Toml.Document

/-!
# Render options

Options are read from TOML or JSON. A missing option keeps its default and an
unknown one is skipped.
-/

namespace TypedSyntax

/-- Options for Python: spaces for each level, and whether declared types are
written as annotations. -/
structure PythonOptions where
  indent : Nat
  typeHints : Bool
deriving DecidableEq, Repr

def PythonOptions.default : PythonOptions := ⟨4, true⟩

instance : Inhabited PythonOptions := ⟨.default⟩

structure RenderConfig where
  python : PythonOptions
deriving DecidableEq, Repr

def RenderConfig.default : RenderConfig := ⟨.default⟩

instance : Inhabited RenderConfig := ⟨.default⟩

/-- What is found at the place of a file. -/
inductive FileState where
  | absent
  | directory
  | content (bytes : ByteArray)

namespace PythonOptions

/-- An indentation in TOML. -/
def indentOf? : Toml.Item → Option Nat
  | .integer (.ofNat n) => some n
  | _ => none

def typeHintsOf? : Toml.Item → Option Bool
  | .boolean b => some b
  | _ => none

/-- Options from the values of the fields that are present. -/
def ofFields? {α : Type} (nat? : α → Option Nat) (bool? : α → Option Bool)
    (indent typeHints : Option α) : Option PythonOptions := do
  let indent ← indent.elim (some PythonOptions.default.indent) nat?
  let typeHints ← typeHints.elim (some PythonOptions.default.typeHints) bool?
  return ⟨indent, typeHints⟩

/-- Options from a table, or from an array of the options in order. A date
counts as a table without options. -/
def ofToml? : Toml.Item → Option PythonOptions
  | .table _ entries | .inline entries =>
    ofFields? indentOf? typeHintsOf? (Toml.Entries.get? entries "indent")
      (Toml.Entries.get? entries "type_hints")
  | .array items => ofFields? indentOf? typeHintsOf? items[0]? items[1]?
  | .dateTime => some .default
  | _ => none

def toJson (options : PythonOptions) : Json.Value :=
  .ofRecord [("indent", .ofNat options.indent), ("type_hints", .bool options.typeHints)]

def ofJson? (depth : Nat) (v : Json.Value) : Option PythonOptions := do
  let _ ← Json.enter? depth
  match ← Json.fields? ["indent", "type_hints"] v with
  | [indent, typeHints] =>
    ofFields? (Json.natBelow? 0x10000000000000000) Json.bool? indent typeHints
  | _ => none

end PythonOptions

namespace RenderConfig

/-- Reads options from a TOML text. -/
def ofToml (text : String) : Except ConfigError RenderConfig :=
  match Toml.document? text with
  | none => .error .malformed
  | some root =>
    match root.get? "python" with
    | none => .ok .default
    | some item =>
      match PythonOptions.ofToml? item with
      | some options => .ok ⟨options⟩
      | none => .error .malformed

/-- Reads options from a file. -/
def load : FileState → Except ConfigError RenderConfig
  | .absent | .directory => .error .unreadable
  | .content bytes =>
    match String.fromUTF8? bytes with
    | some text => ofToml text
    | none => .error .unreadable

/-- Reads options from a file if there is one. -/
def discover : FileState → Except ConfigError RenderConfig
  | .content bytes => load (.content bytes)
  | _ => .ok .default

def toJson (config : RenderConfig) : Json.Value :=
  .ofRecord [("python", config.python.toJson)]

def ofJson? (depth : Nat) (v : Json.Value) : Option RenderConfig := do
  let depth ← Json.enter? depth
  match ← Json.fields? ["python"] v with
  | [none] => return .default
  | [some options] => return ⟨← PythonOptions.ofJson? depth options⟩
  | _ => none

end RenderConfig

end TypedSyntax
