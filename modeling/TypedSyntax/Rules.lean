import TypedSyntax.Term

/-!
# Rendering rules

A set of rules gives texts to some kinds of nodes, from the payload with the
renderings of the children. A node without a rule cannot be rendered.
-/

namespace TypedSyntax

/-- The text of a node, or why there is none. -/
abbrev Rendered := Except RenderError String

/-- The rule for a payload, if there is one. -/
abbrev Rules := Payload (Term × Rendered) → Option Rendered

namespace Rules

/-- No rules at all. -/
def none : Rules := fun _ => .none

/-- Variables are their names, and blocks their statements with semicolons
between them. -/
def names : Rules
  | .variable name _ => some (.ok name)
  | .block _ nodes => some do return ";".intercalate (← nodes.mapM fun node => node.2)
  | _ => .none

/-- Renders a term. -/
def render (rules : Rules) : Term → Rendered :=
  Term.fold fun _ payload => (rules payload).getD (.error (.unsupportedNode payload.kind))

/-- Renders the subtree below a node. -/
def dispatch (rules : Rules) (tree : Tree) (id : NodeId) : Rendered :=
  match tree.term id with
  | .ok t => rules.render t
  | .error e => .error (.node e)

end Rules

end TypedSyntax
