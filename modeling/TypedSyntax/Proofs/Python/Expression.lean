import TypedSyntax.Proofs.Python.Number
import TypedSyntax.Proofs.Python.Readback
import TypedSyntax.Proofs.Python.Spelling

/-!
# Expressions of terms

The operators and operands of a term, and the same with the parentheses that
the writer puts around an operand which is an operation itself. The writer's
text spells the latter, whatever was written before.
-/

namespace TypedSyntax.Python

/-! ## Operators and operands -/

def callOf (callee : String) (arguments : List Expr) : Expr :=
  .call (.atom (.word callee)) (.ofList arguments)

/-- A number literal. A sign is an operator of its own. -/
def signed (negative : Bool) (digits : String) : Expr :=
  if negative then .unary .neg (.atom (.number digits)) else .atom (.number digits)

def doubleExpr (x : Double) : Expr :=
  if x.isNaN then callOf "float" [.atom (.text "'nan'")]
  else if x.isInfinite then
    callOf "float" [.atom (.text (if x.isNegative then "'-inf'" else "'inf'"))]
  else signed x.isNegative (magnitude x)

/-- The class of a temporal literal. -/
def temporalClass : DataType → String
  | .date => "date"
  | .time => "time"
  | _ => "datetime"

def literalExpr (value : LiteralValue) (type : DataType) : Expr :=
  match value with
  | .bool true => .atom (.word "True")
  | .bool false => .atom (.word "False")
  | .int v => signed (decide (v.toInt < 0)) (toString v.toInt.natAbs)
  | .uint v => signed false (toString v.toNat)
  | .float x => doubleExpr x
  | .complex real imag => callOf "complex" [doubleExpr real, doubleExpr imag]
  | .text s => .atom (.text (quote s))
  | .char c => .atom (.text (quote c.toString))
  | .temporal s =>
    .call (.member (.member (.atom (.word "datetime")) (temporalClass type)) "fromisoformat")
      (.ofList [.atom (.text (quote s))])

def collectionExpr (kind : CollectionKind) (items : List Expr) : Expr :=
  match kind, items with
  | .list, items => .display .square (.ofList items)
  | .set, [] => callOf "set" []
  | .set, items => .display .curly (.ofList items)
  | .tuple, items => .display .round (.ofList items)

def comprehensionBracket : ComprehensionKind → Bracket
  | .list => .square
  | .set => .curly
  | .generator => .round

/-- The name that a loop target binds. -/
def boundName? (t : Term) : Option String :=
  match t.payload with
  | .variable name _ => some name
  | .declaration declared _ => some declared.name
  | _ => none

/-- The expression of a node from those of its children. -/
def nodeExpr (operand : Term × Expr → Expr) : Payload (Term × Expr) → Expr
  | .literal value type => literalExpr value type
  | .collection kind elements _ => collectionExpr kind (elements.map (·.2))
  | .mapping entries _ =>
    .display .curly (.ofList (entries.map fun (key, value) => .pair key.2 value.2))
  | .variable name _ => .atom (.word name)
  | .unary op part _ => .unary op (operand part)
  | .binary op lhs rhs _ => .binary op (operand lhs) (operand rhs)
  | .cast part target =>
    match castName? target with
    | some name => callOf name [part.2]
    | none => part.2
  | .call callee arguments _ => callOf callee (arguments.map (·.2))
  | .clause target iterable conditions isAsync =>
    .clause isAsync ((boundName? target.1).getD "") iterable.2 (.ofList (conditions.map (·.2)))
  | .comprehension kind element generators _ =>
    .comprehension (comprehensionBracket kind) element.2 (.ofList (generators.map (·.2)))
  | _ => .none

/-- The operators and operands of a term. A cast without a constructor stands
for its operand. -/
def operators : Term → Expr :=
  Term.fold fun _ => nodeExpr (·.2)

/-- An operand as it is written, in parentheses if it is an operation itself. -/
def writtenOperand (part : Term × Expr) : Expr :=
  match part.1.kind with
  | .binary | .unary => .group part.2
  | _ => part.2

/-- The expression of a term with the parentheses that are written. -/
def written : Term → Expr :=
  Term.fold fun _ => nodeExpr writtenOperand

def nodeNames : Payload (Term × List String) → List String
  | .variable name _ => [name]
  | .call callee arguments _ => callee :: arguments.flatMap (·.2)
  | .clause target iterable conditions _ =>
    (boundName? target.1).toList ++ iterable.2 ++ conditions.flatMap (·.2)
  | p => p.children.flatMap (·.2)

/-- The names of variables and callees in a term. -/
def names : Term → List String :=
  Term.fold fun _ => nodeNames

/-! ## Terms of expressions -/

/-- The two sorts of terms inside an expression. -/
inductive Phrase where
  | expression
  | clause

/-- Expressions, and clauses of comprehensions, with plain names. -/
inductive Plain : Phrase → Term → Prop
  | literal {info value type} : Plain .expression (.node info (.literal value type))
  | collection {info kind elements type} : (∀ t ∈ elements, Plain .expression t) →
      Plain .expression (.node info (.collection kind elements type))
  | mapping {info entries type} :
      (∀ p ∈ entries, Plain .expression p.1) → (∀ p ∈ entries, Plain .expression p.2) →
      Plain .expression (.node info (.mapping entries type))
  | variable {info name type} : isPlain name = true →
      Plain .expression (.node info (.variable name type))
  | unary {info op operand type} : Plain .expression operand →
      Plain .expression (.node info (.unary op operand type))
  | binary {info op lhs rhs type} : Plain .expression lhs → Plain .expression rhs →
      Plain .expression (.node info (.binary op lhs rhs type))
  | cast {info operand target} : Plain .expression operand →
      Plain .expression (.node info (.cast operand target))
  | call {info callee arguments type} : isPlain callee = true →
      (∀ t ∈ arguments, Plain .expression t) →
      Plain .expression (.node info (.call callee arguments type))
  | comprehension {info kind element generators type} : Plain .expression element →
      generators ≠ [] → (∀ t ∈ generators, Plain .clause t) →
      Plain .expression (.node info (.comprehension kind element generators type))
  | clause {info target name iterable conditions isAsync} : boundName? target = some name →
      isPlain name = true → Plain .expression iterable → (∀ t ∈ conditions, Plain .expression t) →
      Plain .clause (.node info (.clause target iterable conditions isAsync))

/-- What is written of a node follows from what is written of its children. -/
theorem written_node (info : TermInfo) (p : Payload Term) :
    written (.node info p) = nodeExpr writtenOperand (p.map fun t => (t, written t)) :=
  Term.fold_node _ info p

theorem operators_node (info : TermInfo) (p : Payload Term) :
    operators (.node info p) = nodeExpr (·.2) (p.map fun t => (t, operators t)) :=
  Term.fold_node _ info p

theorem names_node (info : TermInfo) (p : Payload Term) :
    names (.node info p) = nodeNames (p.map fun t => (t, names t)) :=
  Term.fold_node _ info p

/-! ## The written expression without its parentheses -/

theorem bare_ofList (es : List Expr) : (Expr.ofList es).bare = .ofList (es.map Expr.bare) := by
  induction es with
  | nil => rfl
  | cons e es ih => simp [Expr.bare, ih]

/-- Parentheses inside the arguments are forgotten one by one. -/
theorem bare_callOf (callee : String) (es : List Expr) :
    (callOf callee es).bare = callOf callee (es.map Expr.bare) := by
  simp [callOf, Expr.bare, bare_ofList]

theorem bare_signed (negative : Bool) (digits : String) :
    (signed negative digits).bare = signed negative digits := by
  cases negative <;> rfl

theorem bare_doubleExpr (x : Double) : (doubleExpr x).bare = doubleExpr x := by
  unfold doubleExpr
  split
  · exact bare_callOf _ _
  split
  · exact bare_callOf _ _
  · exact bare_signed _ _

/-- The expression of a literal has no parentheses to forget. -/
theorem bare_literalExpr (value : LiteralValue) (type : DataType) :
    (literalExpr value type).bare = literalExpr value type := by
  cases value with
  | bool b => cases b <;> rfl
  | int | uint => exact bare_signed _ _
  | float => exact bare_doubleExpr _
  | complex => simp [literalExpr, bare_callOf, bare_doubleExpr]
  | text | char | temporal => rfl

theorem bare_collectionExpr (kind : CollectionKind) (es : List Expr) :
    (collectionExpr kind es).bare = collectionExpr kind (es.map Expr.bare) := by
  cases kind with
  | list | tuple => simp [collectionExpr, Expr.bare, bare_ofList]
  | set => cases es <;> simp [collectionExpr, callOf, Expr.bare, bare_ofList]

/-- The parentheses around an operand are forgotten. -/
theorem bare_writtenOperand (t : Term) (e : Expr) : (writtenOperand (t, e)).bare = e.bare := by
  unfold writtenOperand
  split <;> rfl

theorem map_snd {A B : Type} (f : A → B) (xs : List A) :
    (xs.map fun x => (x, f x)).map (·.2) = xs.map f := by
  simp

theorem map_bare_eq {A : Type} {f g : A → Expr} {xs : List A}
    (h : ∀ x ∈ xs, (f x).bare = g x) : (xs.map f).map Expr.bare = xs.map g := by
  rw [List.map_map]
  exact List.map_congr_left h

/-- Parentheses aside, a term is written as its operators and operands. -/
theorem Plain.bare_written {phrase : Phrase} {t : Term} (h : Plain phrase t) :
    (written t).bare = operators t := by
  induction h with
  | literal => exact bare_literalExpr _ _
  | «variable» => rfl
  | collection _ ih =>
      simp only [written_node, operators_node, Payload.map, nodeExpr, map_snd,
        bare_collectionExpr, map_bare_eq ih]
  | @mapping _ entries _ _ _ ihk ihv =>
      have hentries : (entries.map fun p => Expr.pair (written p.1) (written p.2)).map Expr.bare =
          entries.map fun p => .pair (operators p.1) (operators p.2) := by
        apply map_bare_eq
        intro p hp
        rw [Expr.bare, ihk p hp, ihv p hp]
      simp only [written_node, operators_node, Payload.map, nodeExpr, List.map_map,
        Function.comp_def, Expr.bare, bare_ofList] at hentries ⊢
      rw [hentries]
  | unary _ ih =>
      simp only [written_node, operators_node, Payload.map, nodeExpr, Expr.bare,
        bare_writtenOperand, ih]
  | binary _ _ ihl ihr =>
      simp only [written_node, operators_node, Payload.map, nodeExpr, Expr.bare,
        bare_writtenOperand, ihl, ihr]
  | @cast _ _ target _ ih =>
      simp only [written_node, operators_node, Payload.map, nodeExpr]
      cases castName? target with
      | none => exact ih
      | some name => simp only [bare_callOf, List.map_cons, List.map_nil, ih]
  | call _ _ ih =>
      simp only [written_node, operators_node, Payload.map, nodeExpr, map_snd, bare_callOf,
        map_bare_eq ih]
  | comprehension _ _ _ ihe ihg =>
      simp only [written_node, operators_node, Payload.map, nodeExpr, map_snd, Expr.bare,
        bare_ofList, map_bare_eq ihg, ihe]
  | clause _ _ _ _ ihi ihc =>
      simp only [written_node, operators_node, Payload.map, nodeExpr, map_snd, Expr.bare,
        bare_ofList, map_bare_eq ihc, ihi]

/-! ## The shape of written expressions -/

/-- Written expressions are written items. -/
theorem shaped_items {es : List Expr} (h : ∀ e ∈ es, Shaped .whole e) :
    Shaped (.items false) (.ofList es) := by
  induction es with
  | nil => exact Shaped.noItems
  | cons e es ih =>
      rw [List.forall_mem_cons] at h
      exact Shaped.item h.1 (ih h.2)

theorem shaped_filters {es : List Expr} (h : ∀ e ∈ es, Shaped .whole e) :
    Shaped .filters (.ofList es) := by
  induction es with
  | nil => exact Shaped.noFilters
  | cons e es ih =>
      rw [List.forall_mem_cons] at h
      exact Shaped.filter h.1 (ih h.2)

theorem isAtom_of_isPlain {name : String} (h : isPlain name = true) :
    Token.isAtom (.word name) = true := by
  rw [Token.isAtom, h, Bool.true_or]

/-- A call of a plain name is a written expression. -/
theorem shaped_callOf {callee : String} {es : List Expr} (hcallee : isPlain callee = true)
    (h : ∀ e ∈ es, Shaped .whole e) : Shaped .whole (callOf callee es) :=
  Shaped.call (Dotted.name (isAtom_of_isPlain hcallee)) (shaped_items h)

theorem shaped_text (s : String) : Shaped .whole (.atom (.text s)) :=
  Shaped.atom rfl

theorem shaped_signed (negative : Bool) (digits : String) :
    Shaped .whole (signed negative digits) := by
  cases negative with
  | false => exact Shaped.atom rfl
  | true => exact Shaped.unary (Shaped.atom rfl)

theorem shaped_doubleExpr (x : Double) : Shaped .whole (doubleExpr x) := by
  unfold doubleExpr
  split
  · exact shaped_callOf (by decide) (by simp [shaped_text])
  split
  · exact shaped_callOf (by decide) (by simp [shaped_text])
  · exact shaped_signed _ _

/-- The expression of a literal is a written expression. -/
theorem shaped_literalExpr (value : LiteralValue) (type : DataType) :
    Shaped .whole (literalExpr value type) := by
  cases value with
  | bool b => cases b <;> exact Shaped.atom (by decide)
  | int | uint => exact shaped_signed _ _
  | float => exact shaped_doubleExpr _
  | complex => exact shaped_callOf (by decide) (by simp [shaped_doubleExpr])
  | text | char => exact shaped_text _
  | temporal s =>
      have hclass : isPlain (temporalClass type) = true := by
        unfold temporalClass
        split <;> decide
      exact Shaped.call
        (Dotted.member (by decide) (Dotted.member hclass (Dotted.name (by decide))))
        (shaped_items (by simp [shaped_text]))

theorem shaped_collectionExpr (kind : CollectionKind) {es : List Expr}
    (h : ∀ e ∈ es, Shaped .whole e) : Shaped .whole (collectionExpr kind es) := by
  cases kind with
  | list | tuple => exact Shaped.display (shaped_items h)
  | set =>
      cases es with
      | nil => exact shaped_callOf (by decide) h
      | cons => exact Shaped.display (shaped_items h)

theorem isPlain_of_castName? {type : DataType} {name : String}
    (h : castName? type = some name) : isPlain name = true := by
  cases type <;> cases h <;> decide

/-- The node of an operation is written as an operation. -/
theorem isOperation_written {t : Term} (h : t.kind = .binary ∨ t.kind = .unary) :
    (written t).isOperation = true := by
  obtain ⟨info, p⟩ := t
  rw [written_node]
  cases p with
  | unary | binary => rfl
  | _ => rcases h with h | h <;> cases h

/-- An operand is a written expression with and without parentheses. -/
theorem shaped_writtenOperand {t : Term} (h : Shaped .whole (written t)) :
    Shaped .whole (writtenOperand (t, written t)) := by
  unfold writtenOperand
  split
  · next hkind => exact Shaped.group (isOperation_written (Or.inl hkind)) h
  · next hkind => exact Shaped.group (isOperation_written (Or.inr hkind)) h
  · exact h

/-- Written clauses are a written list of clauses. -/
theorem shaped_clauses {es : List Expr}
    (h : ∀ e ∈ es, Shaped .clauses (.cons e .none)) : Shaped .clauses (.ofList es) := by
  induction es with
  | nil => exact Shaped.noClauses
  | cons e es ih =>
      rw [List.forall_mem_cons] at h
      cases h.1 with
      | clause htarget he hfs _ => exact Shaped.clause htarget he hfs (ih h.2)

theorem shaped_entries {A : Type} {f g : A → Expr} {xs : List A}
    (hf : ∀ x ∈ xs, Shaped .whole (f x)) (hg : ∀ x ∈ xs, Shaped .whole (g x)) :
    Shaped (.items true) (.ofList (xs.map fun x => .pair (f x) (g x))) := by
  induction xs with
  | nil => exact Shaped.noItems
  | cons x xs ih =>
      rw [List.forall_mem_cons] at hf hg
      exact Shaped.entry hf.1 hg.1 (ih hf.2 hg.2)

/-- The shape of a written phrase. -/
def Phrase.Shaped : Phrase → Expr → Prop
  | .expression, e => Python.Shaped .whole e
  | .clause, e => Python.Shaped .clauses (.cons e .none)

/-- A plain phrase is written in the shape of its sort. -/
theorem Plain.shaped {phrase : Phrase} {t : Term} (h : Plain phrase t) :
    phrase.Shaped (written t) := by
  have hall : ∀ {phrase : Phrase} {ts : List Term}, (∀ t ∈ ts, phrase.Shaped (written t)) →
      ∀ e ∈ ts.map written, phrase.Shaped e := by
    intro phrase ts hts
    exact List.forall_mem_map.mpr hts
  induction h with
  | literal => exact shaped_literalExpr _ _
  | collection _ ih =>
      rw [written_node, Payload.map, nodeExpr, map_snd]
      exact shaped_collectionExpr _ (hall ih)
  | mapping _ _ ihk ihv =>
      rw [written_node, Payload.map, nodeExpr, List.map_map]
      exact Shaped.mapping (shaped_entries ihk ihv)
  | «variable» hname => exact Shaped.atom (isAtom_of_isPlain hname)
  | unary _ ih =>
      rw [written_node]
      exact Shaped.unary (shaped_writtenOperand ih)
  | binary _ _ ihl ihr =>
      rw [written_node]
      exact Shaped.binary (shaped_writtenOperand ihl) (shaped_writtenOperand ihr)
  | @cast _ operand target _ ih =>
      rw [written_node, Payload.map, nodeExpr]
      cases hname : castName? target with
      | none => exact ih
      | some name =>
          exact shaped_callOf (isPlain_of_castName? hname) (List.forall_mem_singleton.mpr ih)
  | call hcallee _ ih =>
      rw [written_node, Payload.map, nodeExpr, map_snd]
      exact shaped_callOf hcallee (hall ih)
  | @comprehension _ _ _ generators _ _ hne _ ihe ihg =>
      rw [written_node, Payload.map, nodeExpr, map_snd]
      obtain ⟨g, gs, rfl⟩ := List.exists_cons_of_ne_nil hne
      exact Shaped.comprehension ihe (shaped_clauses (hall ihg))
  | clause hbound hname _ _ ihi ihc =>
      rw [written_node, Payload.map, nodeExpr, map_snd, hbound]
      exact Shaped.clause hname ihi (shaped_filters (hall ihc)) Shaped.noClauses

end TypedSyntax.Python
