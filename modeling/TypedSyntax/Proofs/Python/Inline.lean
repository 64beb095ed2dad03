import TypedSyntax.Proofs.Python.Imports
import TypedSyntax.Proofs.Python.Lines
import TypedSyntax.Proofs.Python.Rendering
import TypedSyntax.Proofs.Python.Steady

/-!
# Nodes on one line

The text of an expression, and of every other node that holds no block, is one
line, and it is the same at every width of the indentation.
-/

namespace TypedSyntax.Python

/-- The kinds of nodes that hold no block. -/
def isInline : Kind → Bool
  | .block | .module | .function | .conditional | .whileLoop | .forLoop | .rangeLoop
  | .classDecl | .classDef => false
  | _ => true

/-- The name that a node is written with. -/
def ownName? {α : Type} : Payload α → Option String
  | .variable name _ | .assignment name _ => some name
  | .declaration declared _ => some declared.name
  | .argument parameter _ => some parameter.name
  | .prototype signature _ => some signature.name
  | .call callee .. => some callee
  | .classDecl header .. | .classDef header .. => some header.name
  | _ => none

theorem ownName?_map {α β : Type} (f : α → β) (p : Payload α) :
    ownName? (p.map f) = ownName? p := by
  cases p <;> rfl

/-- A text without line breaks, which in the strict sense is not empty. -/
structure Tidy (strict : Prop) (s : String) : Prop where
  clean : Clean s
  ne_empty : strict → s ≠ ""

variable {strict : Prop}

/-- A term that holds no block, with tidy names and named targets. -/
inductive Inline (strict : Prop) : Term → Prop
  | node {info p} : isInline p.kind = true → (∀ name ∈ ownName? p, Tidy strict name) →
      (∀ t ∈ p.target?, (boundName? t).isSome = true) → (∀ c ∈ p.children, Inline strict c) →
      Inline strict (.node info p)

/-! ## Widths -/

/-- The text of a node that holds no block does not depend on the width if those
of its children do not. -/
theorem nodeText_width {p : Payload Part} (h : isInline p.kind = true) (width width' : Nat)
    (hints : Bool) (info : TermInfo) :
    nodeText ⟨width, hints⟩ info p = nodeText ⟨width', hints⟩ info p := by
  cases p with
  | block | module | function | conditional | whileLoop | forLoop | rangeLoop | classDecl
  | classDef => cases h
  | returning value => cases value <;> rfl
  | _ => rfl

/-- A term that holds no block has the same text at every width. -/
theorem Inline.text_width {t : Term} (h : Inline strict t) (width width' : Nat) (hints : Bool) :
    text ⟨width, hints⟩ t = text ⟨width', hints⟩ t := by
  induction h with
  | @node info p hkind _ _ _ ih =>
    have hparts : (p.map fun t => (t, text ⟨width, hints⟩ t)) =
        p.map fun t => (t, text ⟨width', hints⟩ t) :=
      Payload.map_congr fun c hc => by rw [ih c hc]
    rw [text_node, text_node, hparts]
    exact nodeText_width (by rwa [Payload.kind_map]) width width' hints info

/-! ## Clean texts -/

section Ensures

variable {A B : Type} {m : Writing A} {f : A → Writing B} {Q : A → Prop} {R : B → Prop}

/-- The result of a text in progress has a property. -/
def Ensures (m : Writing A) (Q : A → Prop) : Prop :=
  ∀ imports, Q (m.run imports).1

theorem ensures_pure {a : A} (h : Q a) : Ensures (pure a) Q :=
  fun _ => h

/-- What the first computation ensures the second may assume. -/
theorem Ensures.bind (hm : Ensures m Q) (hf : ∀ a, Q a → Ensures (f a) R) :
    Ensures (m >>= f) R :=
  fun imports => hf _ (hm imports) _

theorem ensures_mapM {xs : List A} (h : ∀ x ∈ xs, Ensures (f x) R) :
    Ensures (xs.mapM f) fun ys => ∀ y ∈ ys, R y := by
  induction xs with
  | nil => exact ensures_pure (List.forall_mem_nil _)
  | cons x xs ih =>
      obtain ⟨hx, hxs⟩ := List.forall_mem_cons.mp h
      rw [List.mapM_cons]
      exact hx.bind fun _ hy => (ih hxs).bind fun _ hys =>
        ensures_pure (List.forall_mem_cons.mpr ⟨hy, hys⟩)

theorem Ensures.mono {Q' : A → Prop} (h : Ensures m Q) (hQ : ∀ a, Q a → Q' a) : Ensures m Q' :=
  fun imports => hQ _ (h imports)

end Ensures

theorem Tidy.append_right {s : String} (h : Tidy strict s) {s' : String} (h' : Clean s') :
    Tidy strict (s ++ s') :=
  ⟨h.clean.append h', fun hstrict => by simp [h.ne_empty hstrict]⟩

theorem Tidy.append_left {s : String} (h : Tidy strict s) {s' : String} (h' : Clean s') :
    Tidy strict (s' ++ s) :=
  ⟨h'.append h.clean, fun hstrict => by simp [h.ne_empty hstrict]⟩

/-- Clean texts are clean together with a clean separator between them. -/
theorem clean_intercalate {separator : String} (h : Clean separator) {ss : List String}
    (hss : ∀ s ∈ ss, Clean s) : Clean (separator.intercalate ss) := by
  cases ss with
  | nil => rw [String.intercalate_nil]; decide
  | cons s ss =>
      induction ss generalizing s with
      | nil => rw [String.intercalate_singleton]; exact hss s List.mem_cons_self
      | cons s' ss ih =>
          obtain ⟨hs, hrest⟩ := List.forall_mem_cons.mp hss
          rw [String.intercalate_cons_cons]
          exact (hs.append h).append (ih s' hrest)

theorem clean_join {ss : List String} (hss : ∀ s ∈ ss, Clean s) : Clean (String.join ss) := by
  induction ss with
  | nil => decide
  | cons s ss ih =>
      obtain ⟨hs, hrest⟩ := List.forall_mem_cons.mp hss
      rw [String.join_cons]
      exact hs.append (ih hrest)

theorem clean_commaList {ss : List String} (h : ∀ s ∈ ss, Clean s) : Clean (commaList ss) :=
  clean_intercalate (by decide) h

theorem ne_break_of_isDigit {c : Char} (h : c.isDigit = true) : c ≠ '\n' ∧ c ≠ '\r' := by
  constructor <;> (rintro rfl; revert h; decide)

theorem Unsigned.clean {s : String} (h : Unsigned s.toList) : Clean s := by
  intro c hc
  generalize s.toList = cs at h hc
  obtain ⟨-, hwhole, hpoint, hpower⟩ := h
  rcases List.mem_append.mp hc with hc | hc
  · rcases List.mem_append.mp hc with hc | hc
    · exact ne_break_of_isDigit (hwhole c hc)
    · rcases hpoint with rfl | ⟨ds, rfl, hds⟩
      · cases hc
      · rcases List.mem_cons.mp hc with rfl | hc
        · decide
        · exact ne_break_of_isDigit (hds c hc)
  · rcases hpower with rfl | ⟨d, ds, rfl, hds⟩
    · cases hc
    · rcases List.mem_cons.mp hc with rfl | hc
      · decide
      · exact ne_break_of_isDigit (hds c hc)

theorem Unsigned.tidy {s : String} (h : Unsigned s.toList) : Tidy strict s where
  clean := h.clean
  ne_empty := by
    intro _ he
    generalize hchars : s.toList = cs at h
    rw [he] at hchars
    obtain ⟨hne, -⟩ := h
    have hwhole := (List.append_eq_nil_iff.mp (List.append_eq_nil_iff.mp hchars.symm).1).1
    exact hne hwhole

/-- The digits of a number are tidy. -/
theorem tidy_nat (n : Nat) : Tidy strict (toString n) := by
  rw [Nat.toString_eq_repr]
  exact (unsigned_repr n).tidy

theorem tidy_int (z : Int) : Tidy strict (toString z) := by
  rw [Int.toString_eq_repr, Int.repr_eq_if]
  split
  · exact (unsigned_repr _).tidy
  · exact (unsigned_repr _).tidy.append_left (by decide)

/-- The text of a double is tidy. -/
theorem tidy_floatLiteral (x : Double) : Tidy strict (floatLiteral x) := by
  unfold floatLiteral
  split
  · exact ⟨by decide, by simp⟩
  split
  · split <;> exact ⟨by decide, by simp⟩
  · rw [text_numberLayout]
    apply (unsigned_magnitude x).tidy.append_left
    split <;> decide

/-- A quoted text is tidy, since it has no control characters. -/
theorem tidy_quote (s : String) : Tidy strict (quote s) where
  clean := fun _ hc => ne_break_of_isControl (isControl_of_mem_quote hc)
  ne_empty := by simp [quote]

theorem clean_hintTail {types : List DataType} (h : ∀ t ∈ types, Clean (hint t)) :
    Clean (hintTail types) := by
  induction types with
  | nil => rw [hintTail]; decide
  | cons t types ih =>
      obtain ⟨ht, htypes⟩ := List.forall_mem_cons.mp h
      have hcomma : Clean ", " := by decide
      rw [hintTail]
      exact (hcomma.append ht).append (ih htypes)

/-- An annotation has no line breaks. -/
theorem clean_hint (t : DataType) : Clean (hint t) := by
  induction t using DataType.induction with
  | step t ih =>
    have hclose : Clean "]" := by decide
    cases t with
    | list item | set item =>
        have hitem := ih item List.mem_cons_self
        exact (Clean.append (by decide) hitem).append hclose
    | tuple items =>
        cases items with
        | nil => decide
        | cons item items =>
            obtain ⟨hitem, hitems⟩ := List.forall_mem_cons.mp ih
            exact ((Clean.append (by decide) hitem).append (clean_hintTail hitems)).append hclose
    | map key value =>
        obtain ⟨hkey, hvalue⟩ := List.forall_mem_cons.mp ih
        exact (((Clean.append (by decide) hkey).append (by decide)).append
          (hvalue value List.mem_cons_self)).append hclose
    | int => exact (by decide : Clean "int")
    | float => exact (by decide : Clean "float")
    | complex => exact (by decide : Clean "complex")
    | _ => decide

/-- The text of a literal is tidy. -/
theorem ensures_literal (value : LiteralValue) (type : DataType) :
    Ensures (literal value type) (Tidy strict) := by
  have hfixed : ∀ {s : String}, Clean s → s ≠ "" → Tidy strict s := fun h hne => ⟨h, fun _ => hne⟩
  cases value with
  | bool b => cases b <;> exact ensures_pure (hfixed (by decide) (by simp))
  | int v => exact ensures_pure (tidy_int _)
  | uint v => exact ensures_pure (tidy_nat _)
  | float x => exact ensures_pure (tidy_floatLiteral x)
  | complex real imag =>
      have himag : Tidy strict (floatLiteral imag) := tidy_floatLiteral imag
      apply ensures_pure
      apply Tidy.append_right _ (by decide)
      apply Tidy.append_right _ himag.clean
      apply Tidy.append_right _ (by decide)
      exact (tidy_floatLiteral real).append_left (by decide)
  | text s => exact ensures_pure (tidy_quote s)
  | char c => exact ensures_pure (tidy_quote _)
  | temporal s =>
      refine Ensures.bind (Q := fun _ => True) (fun _ => trivial) fun _ _ => ensures_pure ?_
      apply Tidy.append_right _ (by decide)
      apply (tidy_quote s).append_left
      apply Clean.append _ (by decide)
      split <;> decide

theorem ensures_hint (options : PythonOptions) (type : DataType) :
    Ensures (annotate options type) fun hint? => ∀ hint ∈ hint?, Clean hint := by
  unfold annotate
  split
  · refine Ensures.bind (Q := fun _ => True) (fun _ => trivial) fun _ _ => ensures_pure ?_
    intro s hs
    exact Option.some.inj hs ▸ clean_hint type
  · exact ensures_pure nofun

section Parts

variable {part : Part} {parts : List Part}

theorem ensures_texts (h : ∀ c ∈ parts, Ensures c.2 (Tidy strict)) :
    Ensures (texts parts) fun ss => ∀ s ∈ ss, Clean s :=
  (ensures_mapM h).mono fun _ hss s hs => (hss s hs).clean

theorem ensures_valueText {part? : Option Part}
    (h : ∀ c ∈ part?.toList, Ensures c.2 (Tidy strict)) :
    Ensures (valueText part?) fun s? => ∀ s ∈ s?, Clean s := by
  cases part? with
  | none => exact ensures_pure nofun
  | some part =>
      refine (h part List.mem_cons_self).bind fun s hs => ensures_pure ?_
      rintro s' ⟨⟩
      exact hs.clean

/-- Brackets leave an operand tidy. -/
theorem ensures_operand (h : Ensures part.2 (Tidy strict)) :
    Ensures (operand part) (Tidy strict) := by
  refine Ensures.bind h fun s hs => ?_
  split
  · exact ensures_pure ((hs.append_left (by decide)).append_right (by decide))
  · exact ensures_pure ((hs.append_left (by decide)).append_right (by decide))
  · exact ensures_pure hs

/-- A declaration is as tidy as its name. -/
theorem tidy_declaration {name : String} (h : Tidy strict name) {hint? value? : Option String}
    (hhint : ∀ s ∈ hint?, Clean s) (hvalue : ∀ s ∈ value?, Clean s) :
    Tidy strict (declaration name hint? value?) := by
  have hcolon : Clean ": " := by decide
  cases hint? with
  | some hint =>
      have htyped := (h.append_right hcolon).append_right (hhint hint rfl)
      cases value? with
      | some value => exact (htyped.append_right (by decide)).append_right (hvalue value rfl)
      | none => exact htyped
  | none =>
      cases value? with
      | some value => exact (h.append_right (by decide)).append_right (hvalue value rfl)
      | none => exact h.append_right (by decide)

theorem tidy_parameter {name : String} (h : Tidy strict name) {hint? default? : Option String}
    (hhint : ∀ s ∈ hint?, Clean s) (hdefault : ∀ s ∈ default?, Clean s) :
    Tidy strict (parameter name hint? default?) := by
  have hcolon : Clean ": " := by decide
  cases hint? with
  | some hint =>
      have htyped := (h.append_right hcolon).append_right (hhint hint rfl)
      cases default? with
      | some value => exact (htyped.append_right (by decide)).append_right (hdefault value rfl)
      | none => exact htyped
  | none =>
      cases default? with
      | some value => exact (h.append_right (by decide)).append_right (hdefault value rfl)
      | none => exact h

theorem clean_unaryToken (op : UnaryOperator) :
    Clean (if op = .not then "not " else op.token) := by
  cases op <;> decide

theorem clean_binaryToken (op : BinaryOperator) : Clean (if op = .xor then "^" else op.token) := by
  cases op <;> decide

theorem clean_castName {type : DataType} {name : String} (h : castName? type = some name) :
    Clean name := by
  unfold castName? at h
  split at h <;> cases h <;> decide

/-- The text of a collection is tidy, since it has brackets. -/
theorem tidy_collection (kind : CollectionKind) {items : List String} (h : ∀ s ∈ items, Clean s) :
    Tidy strict (collection kind items) := by
  have hwrap : ∀ {left right s : String}, Clean left → left ≠ "" → Clean right → Clean s →
      Tidy strict (left ++ s ++ right) :=
    fun hleft hne hright hs => ⟨(hleft.append hs).append hright, fun _ => by simp [hne]⟩
  have hitems := clean_commaList h
  cases kind with
  | list => exact hwrap (by decide) (by simp) (by decide) hitems
  | set =>
      cases items with
      | nil => exact ⟨by decide, fun _ => by simp [collection]⟩
      | cons => exact hwrap (by decide) (by simp) (by decide) hitems
  | tuple =>
      rcases items with _ | ⟨single, _ | ⟨second, rest⟩⟩
      · exact hwrap (by decide) (by simp) (by decide) hitems
      · exact hwrap (by decide) (by simp) (by decide) (h single List.mem_cons_self)
      · exact hwrap (by decide) (by simp) (by decide) hitems

end Parts

/-- A node that holds no block, with a tidy name, targets and children. -/
structure TidyParts (strict : Prop) (p : Payload Part) : Prop where
  name : ∀ name ∈ ownName? p, Tidy strict name
  target : ∀ t ∈ p.target?, Ensures (target t) (Tidy strict)
  text : ∀ c ∈ p.children, Ensures c.2 (Tidy strict)

section Rules

variable {options : PythonOptions} {part : Part} {type : DataType}

theorem ensures_writeCollection {kind : CollectionKind} {elements : List Part}
    (h : TidyParts strict (.collection kind elements type)) :
    Ensures (writeCollection kind elements) (Tidy strict) :=
  (ensures_texts h.text).bind fun _ hitems => ensures_pure (tidy_collection kind hitems)

theorem ensures_writeMapping {entries : List (Part × Part)}
    (h : TidyParts strict (.mapping entries type)) :
    Ensures (writeMapping entries) (Tidy strict) := by
  have hentry : ∀ entry ∈ entries, Ensures (writeEntry entry) Clean := by
    intro entry hentry
    have hkey := h.text entry.1 (List.mem_flatMap.mpr ⟨entry, hentry, by simp⟩)
    have hvalue := h.text entry.2 (List.mem_flatMap.mpr ⟨entry, hentry, by simp⟩)
    exact hkey.bind fun _ hkey => hvalue.bind fun _ hvalue =>
      ensures_pure ((hkey.clean.append (by decide)).append hvalue.clean)
  refine (ensures_mapM hentry).bind fun items hitems => ensures_pure ⟨?_, fun _ => by simp⟩
  exact (Clean.append (by decide) (clean_commaList hitems)).append (by decide)

theorem ensures_writeDeclaration {declared : Declaration} {value : Option Part}
    (h : TidyParts strict (.declaration declared value)) :
    Ensures (writeDeclaration options declared value) (Tidy strict) :=
  (ensures_valueText h.text).bind fun _ hvalue => (ensures_hint options _).bind
    fun _ hhint => ensures_pure (tidy_declaration (h.name _ rfl) hhint hvalue)

theorem ensures_writeArgument {declared : Parameter} {default : Option Part}
    (h : TidyParts strict (.argument declared default)) :
    Ensures (writeArgument options declared default) (Tidy strict) :=
  (ensures_valueText h.text).bind fun _ hdefault => (ensures_hint options _).bind
    fun _ hhint => ensures_pure (tidy_parameter (h.name _ rfl) hhint hdefault)

theorem ensures_writeAssignment {name : String} (h : TidyParts strict (.assignment name part)) :
    Ensures (writeAssignment name part) (Tidy strict) :=
  (h.text part List.mem_cons_self).bind fun _ hs =>
    ensures_pure (hs.append_left ((h.name name rfl).clean.append (by decide)))

theorem ensures_writeUnary {op : UnaryOperator} (h : TidyParts strict (.unary op part type)) :
    Ensures (writeUnary op part) (Tidy strict) :=
  (ensures_operand (h.text part List.mem_cons_self)).bind fun _ hs =>
    ensures_pure (hs.append_left (clean_unaryToken op))

theorem ensures_writeBinary {op : BinaryOperator} {lhs rhs : Part}
    (h : TidyParts strict (.binary op lhs rhs type)) :
    Ensures (writeBinary op lhs rhs) (Tidy strict) := by
  obtain ⟨hlhs, hrhs⟩ := List.forall_mem_cons.mp h.text
  refine (ensures_operand hlhs).bind fun left hleft => ?_
  refine (ensures_operand (hrhs rhs List.mem_cons_self)).bind fun right hright => ensures_pure ?_
  have hspace : Clean " " := by decide
  apply hright.append_left
  exact ((hleft.clean.append hspace).append (clean_binaryToken op)).append hspace

/-- A cast is written as a call, or as its operand. -/
theorem ensures_writeCast (h : TidyParts strict (.cast part type)) :
    Ensures (writeCast part type) (Tidy strict) := by
  refine (h.text part List.mem_cons_self).bind fun s hs => ?_
  split
  · next name hcast =>
    have hopen := (clean_castName hcast).append (by decide : Clean "(")
    exact ensures_pure ((hs.append_left hopen).append_right (by decide))
  · exact ensures_pure hs

theorem ensures_writePrototype (isMethod : Bool) {signature : Signature} {arguments : List Part}
    (h : TidyParts strict (.prototype signature arguments)) :
    Ensures (writePrototype options isMethod signature arguments) (Tidy strict) := by
  refine (ensures_texts h.text).bind fun ss hss =>
    (ensures_hint options _).bind fun result hresult => ensures_pure ?_
  have hparameters : ∀ s ∈ (if isMethod then ["self"] else []) ++ ss, Clean s := by
    apply List.forall_mem_append.mpr ⟨_, hss⟩
    split <;> decide
  have hname := (h.name _ rfl).append_left (by decide : Clean "def ")
  have hcall := ((hname.append_right (by decide : Clean "(")).append_right
    (clean_commaList hparameters)).append_right (by decide : Clean ")")
  apply hcall.append_right
  cases result with
  | none => decide
  | some hint => exact Clean.append (by decide) (hresult hint rfl)

theorem ensures_writeCall {callee : String} {arguments : List Part}
    (h : TidyParts strict (.call callee arguments type)) :
    Ensures (writeCall callee arguments) (Tidy strict) := by
  refine (ensures_texts h.text).bind fun ss hss => ensures_pure ?_
  have hopen := (h.name callee rfl).append_right (by decide : Clean "(")
  exact (hopen.append_right (clean_commaList hss)).append_right (by decide)

/-- A return without a value is a tidy word. -/
theorem ensures_writeReturn {value : Option Part} (h : TidyParts strict (.returning value)) :
    Ensures (writeReturn value) (Tidy strict) := by
  cases value with
  | none => exact ensures_pure ⟨by decide, fun _ => by simp⟩
  | some value =>
      exact (h.text value List.mem_cons_self).bind fun _ hs =>
        ensures_pure (hs.append_left (by decide))

/-- The names, the iterable and the conditions of a clause stand on one line. -/
theorem ensures_writeClause {names iterable : Part} {conditions : List Part} {isAsync : Bool}
    (h : TidyParts strict (.clause names iterable conditions isAsync)) :
    Ensures (writeClause names iterable conditions isAsync) (Tidy strict) := by
  obtain ⟨-, hrest⟩ := List.forall_mem_cons.mp h.text
  obtain ⟨hiterable, hconditions⟩ := List.forall_mem_cons.mp hrest
  refine (h.target names rfl).bind fun name hname => hiterable.bind fun s hs =>
    (ensures_texts hconditions).bind fun ss hss => ensures_pure ?_
  have hfilters : Clean (String.join (ss.map (" if " ++ ·))) :=
    clean_join (List.forall_mem_map.mpr fun s hs => Clean.append (by decide) (hss s hs))
  have hfor : Clean (if isAsync then "async for " else "for ") := by
    split <;> decide
  exact (hs.append_left ((hfor.append hname.clean).append (by decide))).append_right hfilters

theorem ensures_writeComprehension {kind : ComprehensionKind} {element : Part}
    {generators : List Part} (h : TidyParts strict (.comprehension kind element generators type)) :
    Ensures (writeComprehension kind element generators) (Tidy strict) := by
  obtain ⟨helement, hgenerators⟩ := List.forall_mem_cons.mp h.text
  refine helement.bind fun s hs => (ensures_texts hgenerators).bind fun ss hss => ?_
  have hclauses : Clean (String.join (ss.map (" " ++ ·))) :=
    clean_join (List.forall_mem_map.mpr fun s hs => Clean.append (by decide) (hss s hs))
  have hinner := hs.append_right hclauses
  cases kind <;>
    exact ensures_pure ((hinner.append_left (by decide)).append_right (by decide))

end Rules

/-- The text of a node that holds no block is tidy if its name is and those of
its children are. -/
theorem ensures_nodeText {options : PythonOptions} (info : TermInfo) {p : Payload Part}
    (hkind : isInline p.kind = true) (h : TidyParts strict p) :
    Ensures (nodeText options info p) (Tidy strict) := by
  cases p with
  | block | module | function | conditional | whileLoop | forLoop | rangeLoop | classDecl
  | classDef => cases hkind
  | literal value type => exact ensures_literal value type
  | breaking | continuing => exact ensures_pure ⟨by decide, fun _ => by simp⟩
  | «variable» name => exact ensures_pure (h.name name rfl)
  | collection => exact ensures_writeCollection h
  | mapping => exact ensures_writeMapping h
  | declaration => exact ensures_writeDeclaration h
  | assignment => exact ensures_writeAssignment h
  | unary => exact ensures_writeUnary h
  | binary => exact ensures_writeBinary h
  | cast => exact ensures_writeCast h
  | argument => exact ensures_writeArgument h
  | prototype => exact ensures_writePrototype info.isMethod h
  | call => exact ensures_writeCall h
  | returning => exact ensures_writeReturn h
  | clause => exact ensures_writeClause h
  | comprehension => exact ensures_writeComprehension h

theorem ensures_target {t : Term} (h : Inline strict t) (hbound : (boundName? t).isSome = true)
    (options : PythonOptions) : Ensures (target (t, text options t)) (Tidy strict) := by
  obtain ⟨name, hname⟩ := Option.isSome_iff_exists.mp hbound
  have hyields : Yields (target (t, text options t)) name := yields_target hname
  have htidy : Tidy strict name := by
    cases h with
    | @node info p _ hown =>
        cases p with
        | «variable» | declaration => exact hown name hname
        | _ => cases hname
  intro imports
  rw [hyields imports]
  exact htidy

/-- The text of a term that holds no block is tidy. -/
theorem Inline.ensures_text {t : Term} (h : Inline strict t) (options : PythonOptions) :
    Ensures (text options t) (Tidy strict) := by
  induction h with
  | @node info p hkind hname htarget hchildren ih =>
    rw [text_node]
    refine ensures_nodeText info (by rwa [Payload.kind_map]) ⟨?_, ?_, ?_⟩
    · rw [ownName?_map]
      exact hname
    · intro part hpart
      rw [Payload.target?_map] at hpart
      obtain ⟨t, ht, rfl⟩ := Option.map_eq_some_iff.mp hpart
      exact ensures_target (hchildren t (Payload.mem_of_mem_target? ht)) (htarget t ht) options
    · rw [Payload.children_map, List.forall_mem_map]
      exact ih

/-- A term that is written on one line. -/
def words (hints : Bool) (t : Term) : String :=
  ((text ⟨0, hints⟩ t).run .none).1

theorem Inline.tidy_words {t : Term} (h : Inline strict t) (hints : Bool) :
    Tidy strict (words hints t) :=
  h.ensures_text _ _

/-- At every width the text is the same line. -/
theorem Inline.yields_text {t : Term} (h : Inline strict t) (width : Nat) (hints : Bool) :
    Yields (text ⟨width, hints⟩ t) (words hints t) := by
  rw [h.text_width width 0 hints]
  intro imports
  exact steady_text _ t imports .none

end TypedSyntax.Python
