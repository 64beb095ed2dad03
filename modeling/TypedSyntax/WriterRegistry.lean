import TypedSyntax.Python.Writer
import TypedSyntax.Rules

/-!
# Writers by language and extension

A registry lists writers in the order of their registration. The first look-up
adds the writers of the library; each look-up takes the first match.
-/

namespace TypedSyntax

/-- A way to write trees in a language. -/
structure LanguageWriter where
  language : String
  fileExtension : String
  write : Tree → NodeId → Except RenderError String

namespace LanguageWriter

/-- The library's writer for Python. -/
def python : LanguageWriter := ⟨"python", "py", Python.emit⟩

/-- A writer that renders by a set of rules. -/
def ofRules (language fileExtension : String) (rules : Rules) : LanguageWriter :=
  ⟨language, fileExtension, rules.dispatch⟩

end LanguageWriter

/-- A registry. `ready` says that the library's writers are in the list. -/
structure WriterRegistry where
  list : List LanguageWriter
  ready : Bool

namespace WriterRegistry

/-- A registry before its first use. -/
def empty : WriterRegistry := ⟨[], false⟩

def register (registry : WriterRegistry) (writer : LanguageWriter) : WriterRegistry :=
  { registry with list := registry.list ++ [writer] }

/-- Adds the library's writers once. -/
def prepare (registry : WriterRegistry) : WriterRegistry :=
  if registry.ready then registry else ⟨registry.list ++ [.python], true⟩

/-- All writers. -/
def writers (registry : WriterRegistry) : List LanguageWriter × WriterRegistry :=
  (registry.prepare.list, registry.prepare)

def forLanguage? (registry : WriterRegistry) (language : String) :
    Option LanguageWriter × WriterRegistry :=
  (registry.prepare.list.find? (·.language == language), registry.prepare)

def forExtension? (registry : WriterRegistry) (fileExtension : String) :
    Option LanguageWriter × WriterRegistry :=
  (registry.prepare.list.find? (·.fileExtension == fileExtension), registry.prepare)

end WriterRegistry

end TypedSyntax
