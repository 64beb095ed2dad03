import TypedSyntax.Proofs.Python.Inline

/-!
# Outlines

The outline of a term is the list of its lines. A header stands above the nested
lines of its body; a statement stands below its comment. Printed at any width,
the outline is the text of the term.
-/

namespace TypedSyntax.Python

/-- A node with its outline. -/
abbrev Sketch := Term × List Line

/-- An operand on its line. -/
def operandWords (hints : Bool) (t : Term) : String :=
  match t.kind with
  | .binary | .unary => "(" ++ words hints t ++ ")"
  | _ => words hints t

/-- The filter of a loop on its line. -/
def filterWords (hints : Bool) : List Term → String
  | [single] => words hints single
  | conditions => " and ".intercalate (conditions.map (operandWords hints))

/-- The bases of a class, in parentheses. -/
def inherited (names : List String) : String :=
  if names.isEmpty then "" else "(" ++ commaList names ++ ")"

/-- The header of a class on its line. -/
def classWords (header : ClassHeader) (names : List String) : String :=
  "class " ++ header.name ++
    inherited (names ++ (if header.isAbstract then ["ABC"] else [])) ++ ":"

/-- The decorators and the header of a class. -/
def classLines (header : ClassHeader) (names marks : List String) : List Line :=
  marks.map (fun mark => ⟨0, "@" ++ mark⟩) ++ [⟨0, classWords header names⟩]

/-- A statement below its comment. -/
def statementLines (part : Sketch) : List Line :=
  remarks part.1.comment ++ part.2

/-- A header above a body. -/
def under (head : String) (lines : List Line) : List Line :=
  ⟨0, head⟩ :: nest lines

/-- Lines that go on after `el` on the first. -/
def resumed : List Line → List Line
  | [] => []
  | line :: rest => { line with text := "el" ++ line.text } :: rest

/-- The alternative of a conditional. -/
def elseLines : Option Sketch → List Line
  | none => []
  | some block => if isElif block.1 then resumed block.2 else under "else:" block.2

/-- The members of a class, with a blank line before each method but a first
member. -/
def memberLines (attributes methods : List (List Line)) : List (List Line) :=
  match attributes, methods with
  | [], [] => [[⟨0, "pass"⟩]]
  | [], first :: rest => first :: rest.flatMap fun method => [[⟨0, ""⟩], method]
  | attributes, methods => attributes ++ methods.flatMap fun method => [[⟨0, ""⟩], method]

/-- Whether lines have an empty text. -/
def isBlank : List Line → Bool
  | [] => true
  | [line] => line.text.isEmpty
  | _ => false

/-- A module below its imports. -/
def moduleLines (imports : Imports) (body : List Line) : List Line :=
  let header := imports.lines.map (⟨0, ·⟩)
  if header.isEmpty then body
  else if isBlank body then header
  else header ++ ⟨0, ""⟩ :: body

/-- The imports that the statements of a module need. -/
def moduleImports (hints : Bool) (nodes : List Term) : Imports :=
  (((nodes.map fun t => (t, text ⟨0, hints⟩ t)).mapM statement).run .none).2

/-- The outline of a node from those of its children. A node that holds no block
is one line. -/
def nodeOutline (hints : Bool) (info : TermInfo) : Payload Sketch → List Line
  | .block _ nodes => if nodes.isEmpty then [⟨0, "pass"⟩] else nodes.flatMap statementLines
  | .module _ nodes =>
    moduleLines (moduleImports hints (nodes.map (·.1))) (nodes.flatMap statementLines)
  | .function head part => under (words hints head.1 ++ ":") part.2
  | .conditional condition consequent alternative =>
    under ("if " ++ words hints condition.1 ++ ":") consequent.2 ++ elseLines alternative
  | .whileLoop condition part => under ("while " ++ words hints condition.1 ++ ":") part.2
  | .forLoop names iterable conditions part =>
    let head := "for " ++ (boundName? names.1).getD "" ++ " in " ++ words hints iterable.1 ++ ":"
    if conditions.isEmpty then under head part.2
    else under head (under ("if " ++ filterWords hints (conditions.map (·.1)) ++ ":") part.2)
  | .rangeLoop counter start stop step part =>
    let bounds := (start :: stop :: step.toList).map fun bound => words hints bound.1
    under ("for " ++ (boundName? counter.1).getD "" ++ " in range(" ++ commaList bounds ++ "):")
      part.2
  | .classDecl header bases decorators =>
    classLines header (bases.map fun part => words hints part.1)
      (decorators.map fun part => words hints part.1) ++ nest [⟨0, "pass"⟩]
  | .classDef header bases decorators attributes methods =>
    classLines header (bases.map fun part => words hints part.1)
      (decorators.map fun part => words hints part.1) ++
      nest (memberLines (attributes.map statementLines) (methods.map statementLines)).flatten
  | other => [⟨0, words hints (.node info (other.map (·.1)))⟩]

/-- The lines of a term. -/
def outline (hints : Bool) : Term → List Line :=
  Term.fold (nodeOutline hints)

/-- A term whose slots hold what the rules of its kind ask for, with tidy names.
In the strict sense its comments have no carriage return. -/
inductive Printable (strict : Prop) : Term → Prop
  | inline {t} : Inline strict t → Printable strict t
  | block {info name nodes} : (∀ t ∈ nodes, Printable strict t) →
      (∀ t ∈ nodes, strict → '\r' ∉ t.comment.toList) →
      Printable strict (.node info (.block name nodes))
  | function {info head body} : Inline strict head → Printable strict body →
      Printable strict (.node info (.function head body))
  | conditional {info condition consequent alternative} : Inline strict condition →
      Printable strict consequent → (∀ b ∈ alternative, Printable strict b) →
      Printable strict (.node info (.conditional condition consequent alternative))
  | whileLoop {info condition body} : Inline strict condition → Printable strict body →
      Printable strict (.node info (.whileLoop condition body))
  | forLoop {info target iterable conditions body} : Inline strict target →
      (boundName? target).isSome = true → Inline strict iterable →
      (∀ c ∈ conditions, Inline strict c) → Printable strict body →
      Printable strict (.node info (.forLoop target iterable conditions body))
  | rangeLoop {info counter start stop step body} : Inline strict counter →
      (boundName? counter).isSome = true →
      (∀ bound ∈ start :: stop :: step.toList, Inline strict bound) → Printable strict body →
      Printable strict (.node info (.rangeLoop counter start stop step body))
  | classDecl {info header bases decorators} : Tidy strict header.name →
      (∀ e ∈ bases ++ decorators, Inline strict e) →
      Printable strict (.node info (.classDecl header bases decorators))
  | classDef {info header bases decorators attributes methods} : Tidy strict header.name →
      (∀ e ∈ bases ++ decorators, Inline strict e) →
      (∀ t ∈ attributes ++ methods, Printable strict t) →
      (∀ t ∈ attributes ++ methods, strict → '\r' ∉ t.comment.toList) →
      Printable strict (.node info (.classDef header bases decorators attributes methods))

variable {strict : Prop} {hints : Bool} {width : Nat} {t : Term}

theorem outline_node (hints : Bool) (info : TermInfo) (p : Payload Term) :
    outline hints (.node info p) = nodeOutline hints info (p.map fun t => (t, outline hints t)) :=
  Term.fold_node _ info p

/-- A node that holds no block is one line at the left. -/
theorem nodeOutline_inline {p : Payload Sketch} (h : isInline p.kind = true) (hints : Bool)
    (info : TermInfo) :
    nodeOutline hints info p = [⟨0, words hints (.node info (p.map (·.1)))⟩] := by
  cases p with
  | block | module | function | conditional | whileLoop | forLoop | rangeLoop | classDecl
  | classDef => cases h
  | _ => rfl

/-- A term that holds no block has one line. -/
theorem Inline.outline_eq (h : Inline strict t) (hints : Bool) :
    outline hints t = [⟨0, words hints t⟩] := by
  cases h with
  | @node info p hkind =>
    rw [outline_node, nodeOutline_inline (by rwa [Payload.kind_map]), Payload.map_map,
      Payload.map_id]

/-! ## The outline of each kind -/

section Equations

variable (hints : Bool) (info : TermInfo)

attribute [local simp] nodeOutline

/-- A block is the lines of its statements, or `pass`. -/
theorem outline_block (name : String) (nodes : List Term) :
    outline hints (.node info (.block name nodes)) =
      if nodes.isEmpty then [⟨0, "pass"⟩]
      else nodes.flatMap fun t => statementLines (t, outline hints t) := by
  rw [outline_node, Payload.map, nodeOutline, List.isEmpty_map, List.flatMap_map]

/-- A module is its imports and the lines of its statements. -/
theorem outline_module (name : String) (nodes : List Term) :
    outline hints (.node info (.module name nodes)) =
      moduleLines (moduleImports hints nodes)
        (nodes.flatMap fun t => statementLines (t, outline hints t)) := by
  rw [outline_node, Payload.map, nodeOutline, List.map_map, List.flatMap_map]
  simp only [Function.comp_def, List.map_id']

/-- The head of a function stands above its nested body. -/
theorem outline_function (head body : Term) :
    outline hints (.node info (.function head body)) =
      under (words hints head ++ ":") (outline hints body) := by
  rw [outline_node]
  rfl

/-- The alternative of a conditional follows at the depth of its condition. -/
theorem outline_conditional (condition consequent : Term) (alternative : Option Term) :
    outline hints (.node info (.conditional condition consequent alternative)) =
      under ("if " ++ words hints condition ++ ":") (outline hints consequent) ++
        elseLines (alternative.map fun t => (t, outline hints t)) := by
  rw [outline_node]
  rfl

theorem outline_whileLoop (condition body : Term) :
    outline hints (.node info (.whileLoop condition body)) =
      under ("while " ++ words hints condition ++ ":") (outline hints body) := by
  rw [outline_node]
  rfl

/-- A filter stands between the head of a loop and its body, and nests the body once
more. -/
theorem outline_forLoop (target iterable : Term) (conditions : List Term) (body : Term) :
    outline hints (.node info (.forLoop target iterable conditions body)) =
      under ("for " ++ (boundName? target).getD "" ++ " in " ++ words hints iterable ++ ":")
        (if conditions.isEmpty then outline hints body
        else under ("if " ++ filterWords hints conditions ++ ":") (outline hints body)) := by
  rw [outline_node, Payload.map, nodeOutline]
  simp only [List.map_map, List.isEmpty_map, Function.comp_def, List.map_id']
  split <;> rfl

/-- The bounds and the step of a loop are the arguments of a range. -/
theorem outline_rangeLoop (counter start stop : Term) (step : Option Term) (body : Term) :
    outline hints (.node info (.rangeLoop counter start stop step body)) =
      under ("for " ++ (boundName? counter).getD "" ++ " in range(" ++
        commaList ((start :: stop :: step.toList).map (words hints)) ++ "):")
        (outline hints body) := by
  rw [outline_node, Payload.map, nodeOutline]
  cases step <;> rfl

theorem outline_classDecl (header : ClassHeader) (bases decorators : List Term) :
    outline hints (.node info (.classDecl header bases decorators)) =
      classLines header (bases.map (words hints)) (decorators.map (words hints)) ++
        nest [⟨0, "pass"⟩] := by
  rw [outline_node, Payload.map, nodeOutline, List.map_map, List.map_map]
  rfl

/-- The members of a class are nested below its decorators and its header. -/
theorem outline_classDef (header : ClassHeader) (bases decorators attributes methods : List Term) :
    outline hints (.node info (.classDef header bases decorators attributes methods)) =
      classLines header (bases.map (words hints)) (decorators.map (words hints)) ++
        nest (memberLines (attributes.map fun t => statementLines (t, outline hints t))
          (methods.map fun t => statementLines (t, outline hints t))).flatten := by
  rw [outline_node, Payload.map, nodeOutline]
  simp only [List.map_map]
  rfl

end Equations

/-! ## Outlines are texts -/

/-- The text of a term is its outline, printed. -/
structure Laid (width : Nat) (hints : Bool) (t : Term) : Prop where
  head : ∃ s rest, outline hints t = ⟨0, s⟩ :: rest
  whole : ∀ line ∈ outline hints t, line.Whole
  yields : Yields (text ⟨width, hints⟩ t) (print width (outline hints t))

theorem Yields.of_eq {A : Type} {m : Writing A} {a b : A} (h : Yields m a) (he : a = b) :
    Yields m b :=
  he ▸ h

/-- A header is printed on a line of its own above the nested lines. -/
theorem print_under (width : Nat) (head : String) {lines : List Line} (h : lines ≠ []) :
    print width (under head lines) = head ++ "\n" ++ print width (nest lines) := by
  rw [under, print_cons _ _ (nest_ne_nil h), Line.indented_zero]

/-- A term that holds no block is printed as its one line. -/
theorem Inline.laid (h : Inline strict t) (width : Nat) (hints : Bool) : Laid width hints t where
  head := ⟨_, _, h.outline_eq hints⟩
  whole := by
    rw [h.outline_eq hints]
    exact List.forall_mem_singleton.mpr ((h.tidy_words hints).clean.whole 0)
  yields := by
    rw [h.outline_eq hints, print_singleton, Line.indented_zero]
    exact h.yields_text width hints

theorem Laid.ne_nil (h : Laid width hints t) : outline hints t ≠ [] := by
  obtain ⟨s, rest, hlines⟩ := h.head
  rw [hlines]
  exact List.cons_ne_nil _ _

/-- A statement begins at the left, with or without a comment. -/
theorem Laid.statement_head (h : Laid width hints t) :
    ∃ s rest, statementLines (t, outline hints t) = ⟨0, s⟩ :: rest := by
  rw [statementLines, remarks]
  cases Text.lines t.comment.toList with
  | nil => exact h.head
  | cons line lines => exact ⟨_, _, rfl⟩

theorem Laid.statement_ne_nil (h : Laid width hints t) :
    statementLines (t, outline hints t) ≠ [] :=
  List.append_ne_nil_of_right_ne_nil _ h.ne_nil

/-- No line of a statement is broken further, with or without a comment. -/
theorem Laid.whole_statement (h : Laid width hints t) :
    ∀ line ∈ statementLines (t, outline hints t), line.Whole :=
  List.forall_mem_append.mpr ⟨whole_remarks _, h.whole⟩

/-- The text of a statement is its lines, printed. -/
theorem Laid.yields_statement (h : Laid width hints t) :
    Yields (statement (t, text ⟨width, hints⟩ t))
      (print width (statementLines (t, outline hints t))) := by
  rw [statementLines, print_remarks width _ h.ne_nil]
  exact Python.yields_statement h.yields

/-- The text of a body is the lines of the block, one level deeper. -/
theorem Laid.yields_body (h : Laid width hints t) :
    Yields (body ⟨width, hints⟩ (t, text ⟨width, hints⟩ t))
      (print width (nest (outline hints t))) := by
  have hprint := indentLines_print ⟨width, hints⟩ h.ne_nil h.whole
  rw [← hprint]
  exact h.yields.bind (yields_pure _)

/-- The statements of a node, one after the other. -/
theorem yields_statements {nodes : List Term} (h : ∀ t ∈ nodes, Laid width hints t) :
    Yields ((nodes.map fun t => (t, text ⟨width, hints⟩ t)).mapM statement)
      (nodes.map fun t => print width (statementLines (t, outline hints t))) := by
  apply yields_mapM
  rw [List.forall₂_map_left_iff, List.forall₂_map_right_iff, List.forall₂_same]
  exact fun t ht => (h t ht).yields_statement

theorem yields_words {ts : List Term} (h : ∀ t ∈ ts, Inline strict t) (width : Nat)
    (hints : Bool) :
    Yields (texts (ts.map fun t => (t, text ⟨width, hints⟩ t))) (ts.map (words hints)) := by
  apply yields_mapM
  rw [List.forall₂_map_left_iff, List.forall₂_map_right_iff, List.forall₂_same]
  exact fun t ht => (h t ht).yields_text width hints

theorem whole_under {head : String} (hhead : Clean head) {lines : List Line}
    (h : ∀ line ∈ lines, line.Whole) : ∀ line ∈ under head lines, line.Whole :=
  List.forall_mem_cons.mpr ⟨hhead.whole 0, whole_nest h⟩

/-- A block is laid out if its statements are. -/
theorem Laid.block {info : TermInfo} {name : String} {nodes : List Term}
    (h : ∀ t ∈ nodes, Laid width hints t) : Laid width hints (.node info (.block name nodes)) := by
  have houtline := outline_block hints info name nodes
  cases nodes with
  | nil =>
      rw [List.isEmpty_nil, if_pos rfl] at houtline
      constructor
      · exact ⟨_, _, houtline⟩
      · rw [houtline]
        exact List.forall_mem_singleton.mpr (Clean.whole (by decide) 0)
      · rw [houtline, print_singleton, Line.indented_zero, text_node]
        exact yields_pure _
  | cons t nodes =>
      have hnodes : ∀ c ∈ t :: nodes, statementLines (c, outline hints c) ≠ [] :=
        fun c hc => (h c hc).statement_ne_nil
      rw [List.isEmpty_cons, if_neg (by decide)] at houtline
      constructor
      · obtain ⟨s, rest, hhead⟩ := (h t List.mem_cons_self).statement_head
        rw [houtline, List.flatMap_cons, hhead]
        exact ⟨s, _, rfl⟩
      · rw [houtline]
        intro line hline
        obtain ⟨c, hc, hline⟩ := List.mem_flatMap.mp hline
        exact (h c hc).whole_statement line hline
      · rw [houtline, print_flatMap width hnodes, text_node]
        exact (yields_statements h).bind (yields_pure _)

/-- A function is laid out if its body is. -/
theorem Laid.function {info : TermInfo} {head part : Term} (hhead : Inline strict head)
    (hpart : Laid width hints part) : Laid width hints (.node info (.function head part)) := by
  constructor
  · exact ⟨_, _, outline_function ..⟩
  · rw [outline_function]
    exact whole_under ((hhead.tidy_words hints).clean.append (by decide)) hpart.whole
  · rw [outline_function, print_under _ _ hpart.ne_nil, text_node]
    refine Yields.of_eq ((hhead.yields_text width hints).bind
      (hpart.yields_body.bind (yields_pure _))) ?_
    simp only [String.append_assoc]
    rfl

/-- A loop is laid out if its body is. -/
theorem Laid.whileLoop {info : TermInfo} {condition part : Term}
    (hcondition : Inline strict condition) (hpart : Laid width hints part) :
    Laid width hints (.node info (.whileLoop condition part)) := by
  constructor
  · exact ⟨_, _, outline_whileLoop ..⟩
  · rw [outline_whileLoop]
    have hwords := (hcondition.tidy_words hints).clean
    exact whole_under ((Clean.append (by decide) hwords).append (by decide)) hpart.whole
  · rw [outline_whileLoop, print_under _ _ hpart.ne_nil, text_node]
    refine Yields.of_eq ((hcondition.yields_text width hints).bind
      (hpart.yields_body.bind (yields_pure _))) ?_
    simp only [String.append_assoc]
    rfl

/-- Lines that go on after `el` are printed after `el`. -/
theorem print_resumed {lines : List Line} (h : ∃ s rest, lines = ⟨0, s⟩ :: rest) (width : Nat) :
    print width (resumed lines) = "el" ++ print width lines := by
  obtain ⟨s, rest, rfl⟩ := h
  cases rest with
  | nil => simp [resumed, print_singleton]
  | cons next rest =>
      have hne : next :: rest ≠ [] := List.cons_ne_nil _ _
      rw [resumed, print_cons width _ hne, print_cons width _ hne, Line.indented_zero,
        Line.indented_zero]
      simp only [String.append_assoc]

theorem whole_resumed {lines : List Line} (h : ∀ line ∈ lines, line.Whole) :
    ∀ line ∈ resumed lines, line.Whole := by
  cases lines with
  | nil => exact List.forall_mem_nil _
  | cons line rest =>
      obtain ⟨hline, hrest⟩ := List.forall_mem_cons.mp h
      have hfeed : '\n' ∉ ("el" ++ line.text).toList := by
        simpa using hline.notMem
      exact List.forall_mem_cons.mpr ⟨⟨hfeed, by simp⟩, hrest⟩

theorem Laid.whole_else {block : Term} (h : Laid width hints block) :
    ∀ line ∈ elseLines (some (block, outline hints block)), line.Whole := by
  rw [elseLines]
  split
  · exact whole_resumed h.whole
  · exact whole_under (by decide) h.whole

theorem Laid.else_ne_nil {block : Term} (h : Laid width hints block) :
    elseLines (some (block, outline hints block)) ≠ [] := by
  obtain ⟨line, rest, hlines⟩ := List.exists_cons_of_ne_nil h.ne_nil
  rw [elseLines]
  split <;> simp [hlines, resumed, under]

/-- The text of an alternative is a line break and the lines of the alternative,
printed. -/
theorem Laid.yields_else {block : Term} (h : Laid width hints block) :
    Yields (writeElse ⟨width, hints⟩ (some (block, text ⟨width, hints⟩ block)))
      ("\n" ++ print width (elseLines (some (block, outline hints block)))) := by
  rw [writeElse, elseLines]
  split
  · rw [print_resumed h.head]
    exact h.yields.bind (yields_pure _)
  · rw [print_under _ _ h.ne_nil]
    exact h.yields_body.bind (yields_pure _)

/-- A conditional is laid out if its consequent and its alternative are. -/
theorem Laid.conditional {info : TermInfo} {condition consequent : Term}
    {alternative : Option Term} (hcondition : Inline strict condition)
    (hconsequent : Laid width hints consequent)
    (halternative : ∀ b ∈ alternative, Laid width hints b) :
    Laid width hints (.node info (.conditional condition consequent alternative)) := by
  have hwords := (hcondition.tidy_words hints).clean
  have hunder : ∀ line ∈ under ("if " ++ words hints condition ++ ":") (outline hints consequent),
      line.Whole :=
    whole_under ((Clean.append (by decide) hwords).append (by decide)) hconsequent.whole
  constructor
  · exact ⟨_, _, outline_conditional ..⟩
  · rw [outline_conditional, List.forall_mem_append]
    refine ⟨hunder, ?_⟩
    cases alternative with
    | none => exact List.forall_mem_nil _
    | some block =>
        exact (halternative block rfl).whole_else
  · rw [outline_conditional, text_node]
    cases alternative with
    | none =>
        rw [Option.map_none, elseLines, List.append_nil, print_under _ _ hconsequent.ne_nil]
        refine Yields.of_eq ((hcondition.yields_text width hints).bind
          (hconsequent.yields_body.bind (Yields.bind (yields_pure _) (yields_pure _)))) ?_
        simp only [String.append_assoc, String.append_empty]
        rfl
    | some block =>
        have hblock := halternative block rfl
        have hne : under ("if " ++ words hints condition ++ ":") (outline hints consequent) ≠ [] :=
          List.cons_ne_nil _ _
        rw [Option.map_some, print_append _ hne hblock.else_ne_nil,
          print_under _ _ hconsequent.ne_nil]
        refine Yields.of_eq ((hcondition.yields_text width hints).bind
          (hconsequent.yields_body.bind (hblock.yields_else.bind (yields_pure _)))) ?_
        simp only [String.append_assoc]
        rfl

/-- The text of an operand is the operand on its line. -/
theorem yields_operandWords {t : Term} (h : Inline strict t) (width : Nat) (hints : Bool) :
    Yields (operand (t, text ⟨width, hints⟩ t)) (operandWords hints t) := by
  unfold operand operandWords
  refine (h.yields_text width hints).bind ?_
  dsimp only
  cases t.kind <;> exact yields_pure _

/-- The text of a filter is the filter on its line. -/
theorem yields_filterWords {conditions : List Term} (h : ∀ c ∈ conditions, Inline strict c)
    (width : Nat) (hints : Bool) :
    Yields (conjunction (conditions.map fun t => (t, text ⟨width, hints⟩ t)))
      (filterWords hints conditions) := by
  have hmany : Yields ((conditions.map fun t => (t, text ⟨width, hints⟩ t)).mapM operand)
      (conditions.map (operandWords hints)) := by
    apply yields_mapM
    rw [List.forall₂_map_left_iff, List.forall₂_map_right_iff, List.forall₂_same]
    exact fun t ht => yields_operandWords (h t ht) width hints
  rcases conditions with _ | ⟨single, _ | ⟨second, rest⟩⟩
  · exact hmany.bind (yields_pure _)
  · exact (h single List.mem_cons_self).yields_text width hints
  · exact hmany.bind (yields_pure _)

theorem Inline.clean_operandWords {t : Term} (h : Inline strict t) (hints : Bool) :
    Clean (operandWords hints t) := by
  have hwords := (h.tidy_words hints).clean
  unfold operandWords
  split
  · exact (Clean.append (by decide) hwords).append (by decide)
  · exact (Clean.append (by decide) hwords).append (by decide)
  · exact hwords

theorem clean_filterWords {conditions : List Term} (h : ∀ c ∈ conditions, Inline strict c)
    (hints : Bool) : Clean (filterWords hints conditions) := by
  unfold filterWords
  split
  · next single => exact ((h single List.mem_cons_self).tidy_words hints).clean
  · apply clean_intercalate (by decide)
    exact List.forall_mem_map.mpr fun c hc => (h c hc).clean_operandWords hints

/-- The name of a target. -/
theorem Inline.exists_target {target : Term} (h : Inline strict target)
    (hbound : (boundName? target).isSome = true) (options : PythonOptions) :
    Yields (Python.target (target, text options target)) ((boundName? target).getD "") ∧
      Clean ((boundName? target).getD "") := by
  obtain ⟨name, hname⟩ := Option.isSome_iff_exists.mp hbound
  have hyields : Yields (Python.target (target, text options target)) name := yields_target hname
  have hclean := (ensures_target h hbound options .none).clean
  rw [hyields .none] at hclean
  rw [hname]
  exact ⟨hyields, hclean⟩

/-- A loop with a filter is laid out if its body is. -/
theorem Laid.forLoop {info : TermInfo} {target iterable part : Term} {conditions : List Term}
    (htarget : Inline strict target) (hbound : (boundName? target).isSome = true)
    (hiterable : Inline strict iterable) (hconditions : ∀ c ∈ conditions, Inline strict c)
    (hpart : Laid width hints part) :
    Laid width hints (.node info (.forLoop target iterable conditions part)) := by
  obtain ⟨hname, hcleanName⟩ := htarget.exists_target hbound ⟨width, hints⟩
  have hhead : Clean ("for " ++ (boundName? target).getD "" ++ " in " ++ words hints iterable ++
      ":") :=
    ((((Clean.append (by decide) hcleanName).append (by decide)).append
      (hiterable.tidy_words hints).clean).append (by decide))
  cases conditions with
  | nil =>
      have houtline := outline_forLoop hints info target iterable [] part
      rw [List.isEmpty_nil, if_pos rfl] at houtline
      constructor
      · exact ⟨_, _, houtline⟩
      · rw [houtline]
        exact whole_under hhead hpart.whole
      · rw [houtline, print_under _ _ hpart.ne_nil, text_node]
        refine Yields.of_eq (hname.bind ((hiterable.yields_text width hints).bind
          (hpart.yields_body.bind (Yields.bind (yields_pure _) (yields_pure _))))) ?_
        simp only [String.append_assoc]
        rfl
  | cons c conditions =>
      have hfilter : Clean ("if " ++ filterWords hints (c :: conditions) ++ ":") :=
        (Clean.append (by decide) (clean_filterWords hconditions hints)).append (by decide)
      have hne : under ("if " ++ filterWords hints (c :: conditions) ++ ":") (outline hints part) ≠
          [] := List.cons_ne_nil _ _
      have hwhole := whole_under hfilter hpart.whole
      have houtline := outline_forLoop hints info target iterable (c :: conditions) part
      rw [List.isEmpty_cons, if_neg (by decide)] at houtline
      have hindent := indentLines_print ⟨width, hints⟩ hne hwhole
      rw [print_under _ _ hpart.ne_nil] at hindent
      constructor
      · exact ⟨_, _, houtline⟩
      · rw [houtline]
        exact whole_under hhead hwhole
      · rw [houtline, print_under _ _ hne, text_node]
        refine Yields.of_eq (hname.bind ((hiterable.yields_text width hints).bind
          (hpart.yields_body.bind (Yields.bind ((yields_filterWords hconditions width hints).bind
            (yields_pure _)) (yields_pure _))))) ?_
        rw [← hindent]
        simp only [String.append_assoc]
        rfl

theorem yields_step {step : Option Term} (h : ∀ s ∈ step.toList, Inline strict s) (width : Nat)
    (hints : Bool) :
    Yields ((step.map fun t => (t, text ⟨width, hints⟩ t)).mapM fun part : Part => part.2)
      (step.map (words hints)) := by
  cases step with
  | none => exact yields_pure none
  | some s =>
      have hs := (h s List.mem_cons_self).yields_text width hints
      change Yields (do return some (← text ⟨width, hints⟩ s)) (some (words hints s))
      exact hs.bind (yields_pure _)

/-- A loop over a range is laid out if its body is. -/
theorem Laid.rangeLoop {info : TermInfo} {counter start stop part : Term} {step : Option Term}
    (hcounter : Inline strict counter) (hbound : (boundName? counter).isSome = true)
    (hbounds : ∀ bound ∈ start :: stop :: step.toList, Inline strict bound)
    (hpart : Laid width hints part) :
    Laid width hints (.node info (.rangeLoop counter start stop step part)) := by
  obtain ⟨hname, hcleanName⟩ := hcounter.exists_target hbound ⟨width, hints⟩
  have hcommas : Clean (commaList ((start :: stop :: step.toList).map (words hints))) :=
    clean_commaList (List.forall_mem_map.mpr fun b hb => ((hbounds b hb).tidy_words hints).clean)
  obtain ⟨hstart, hrest⟩ := List.forall_mem_cons.mp hbounds
  obtain ⟨hstop, hstep⟩ := List.forall_mem_cons.mp hrest
  constructor
  · exact ⟨_, _, outline_rangeLoop ..⟩
  · rw [outline_rangeLoop]
    exact whole_under ((((Clean.append (by decide) hcleanName).append (by decide)).append
      hcommas).append (by decide)) hpart.whole
  · rw [outline_rangeLoop, print_under _ _ hpart.ne_nil, text_node]
    refine Yields.of_eq (hname.bind ((hstart.yields_text width hints).bind
      ((hstop.yields_text width hints).bind ((yields_step hstep width hints).bind
        (hpart.yields_body.bind (yields_pure _)))))) ?_
    rw [List.map_cons, List.map_cons, ← Option.toList_map]
    simp only [String.append_assoc]
    rfl

/-! ## Classes -/

section Classes

variable {header : ClassHeader} {bases decorators : List Term}

theorem clean_inherited {names : List String} (h : ∀ s ∈ names, Clean s) :
    Clean (inherited names) := by
  unfold inherited
  split
  · decide
  · exact (Clean.append (by decide) (clean_commaList h)).append (by decide)

theorem clean_classWords {names : List String} (hname : Clean header.name)
    (h : ∀ s ∈ names, Clean s) : Clean (classWords header names) := by
  have hnames : ∀ s ∈ names ++ (if header.isAbstract then ["ABC"] else []), Clean s := by
    refine List.forall_mem_append.mpr ⟨h, ?_⟩
    split <;> decide
  exact ((Clean.append (by decide) hname).append (clean_inherited hnames)).append (by decide)

/-- The decorators and the header of a class have no line breaks. -/
theorem clean_classLines {names marks : List String} (hname : Clean header.name)
    (h : ∀ s ∈ names ++ marks, Clean s) :
    ∀ line ∈ classLines header names marks, Clean line.text := by
  obtain ⟨hnames, hmarks⟩ := List.forall_mem_append.mp h
  rw [classLines, List.forall_mem_append, List.forall_mem_map, List.forall_mem_singleton]
  exact ⟨fun s hs => Clean.append (by decide) (hmarks s hs), clean_classWords hname hnames⟩

theorem classLines_head (header : ClassHeader) (names marks : List String) :
    ∃ s rest, classLines header names marks = ⟨0, s⟩ :: rest := by
  cases marks with
  | nil => exact ⟨_, _, rfl⟩
  | cons mark marks => exact ⟨_, _, rfl⟩

theorem clean_words (h : ∀ e ∈ bases ++ decorators, Inline strict e) (hints : Bool) :
    ∀ s ∈ bases.map (words hints) ++ decorators.map (words hints), Clean s := by
  rw [← List.map_append, List.forall_mem_map]
  exact fun e he => ((h e he).tidy_words hints).clean

/-- The texts of decorators, each on a line of its own. -/
theorem print_decorators (width : Nat) (ss : List String) {second : List Line}
    (h : second ≠ []) :
    print width (ss.map (fun s => ⟨0, "@" ++ s⟩) ++ second) =
      String.join (ss.map fun s => "@" ++ s ++ "\n") ++ print width second := by
  induction ss with
  | nil => rfl
  | cons s ss ih =>
      rw [List.map_cons, List.map_cons, List.cons_append, String.join_cons,
        print_cons _ _ (by simp [h]), ih, Line.indented_zero]
      simp only [String.append_assoc]

/-- The text of a class header is its lines, printed. -/
theorem yields_classHead (h : ∀ e ∈ bases ++ decorators, Inline strict e) (width : Nat)
    (hints : Bool) :
    Yields (classHead header (bases.map fun t => (t, text ⟨width, hints⟩ t))
        (decorators.map fun t => (t, text ⟨width, hints⟩ t)))
      (print width
        (classLines header (bases.map (words hints)) (decorators.map (words hints)))) := by
  obtain ⟨hbases, hdecorators⟩ := List.forall_mem_append.mp h
  have habove := print_decorators width (decorators.map (words hints))
    (List.cons_ne_nil ⟨0, classWords header (bases.map (words hints))⟩ [])
  rw [print_singleton, Line.indented_zero] at habove
  refine Yields.of_eq ((yields_words hdecorators width hints).bind
    ((yields_words hbases width hints).bind ?_)) habove.symm
  split
  · next habstract =>
    refine Yields.of_eq (Yields.bind (fun _ => rfl) (yields_pure _)) ?_
    simp only [classWords, inherited, habstract, if_true, List.map_map, String.append_assoc]
  · next habstract =>
    refine Yields.of_eq (yields_pure _) ?_
    simp only [classWords, inherited, habstract, Bool.false_eq_true, if_false, List.append_nil,
      List.map_map, String.append_assoc]

/-- A class is its header above the nested lines of its members. -/
theorem Laid.of_class {info : TermInfo} {p : Payload Term} (lines : List Line)
    (hname : Clean header.name) (h : ∀ e ∈ bases ++ decorators, Inline strict e)
    (hne : lines ≠ []) (hwhole : ∀ line ∈ lines, line.Whole)
    (houtline : outline hints (.node info p) =
      classLines header (bases.map (words hints)) (decorators.map (words hints)) ++ nest lines)
    (hyields : Yields (text ⟨width, hints⟩ (.node info p))
      (print width (classLines header (bases.map (words hints)) (decorators.map (words hints))) ++
        "\n" ++ indentLines ⟨width, hints⟩ (print width lines))) :
    Laid width hints (.node info p) := by
  obtain ⟨s, rest, hcons⟩ :=
    classLines_head header (bases.map (words hints)) (decorators.map (words hints))
  have hhead : classLines header (bases.map (words hints)) (decorators.map (words hints)) ≠ [] := by
    rw [hcons]
    exact List.cons_ne_nil _ _
  constructor
  · rw [houtline, hcons]
    exact ⟨s, _, rfl⟩
  · rw [houtline, List.forall_mem_append]
    exact ⟨fun line hline =>
      (clean_classLines hname (clean_words h hints) line hline).whole line.depth, whole_nest hwhole⟩
  · rw [houtline, print_append _ hhead (nest_ne_nil hne)]
    have hbody := indentLines_print ⟨width, hints⟩ hne hwhole
    rw [hbody] at hyields
    exact hyields

/-- A declared class has `pass` as its body. -/
theorem Laid.classDecl {info : TermInfo} (hname : Clean header.name)
    (h : ∀ e ∈ bases ++ decorators, Inline strict e) :
    Laid width hints (.node info (.classDecl header bases decorators)) := by
  refine of_class [⟨0, "pass"⟩] hname h (by simp)
    (List.forall_mem_singleton.mpr (Clean.whole (by decide) 0)) (outline_classDecl ..) ?_
  rw [text_node, print_singleton, Line.indented_zero]
  exact (yields_classHead h width hints).bind (yields_pure _)

/-- The lines of the members are those of the texts of the members. -/
theorem members_print (width : Nat) (attributes methods : List (List Line)) :
    members (attributes.map (print width)) (methods.map (print width)) =
      (memberLines attributes methods).map (print width) := by
  have hblank : print width [⟨0, ""⟩] = "" := print_singleton _ _
  have hpass : print width [⟨0, "pass"⟩] = "pass" := print_singleton _ _
  have hmethods : ∀ ms : List (List Line),
      (ms.map (print width)).flatMap (fun method => ["", method]) =
        (ms.flatMap fun method => [[⟨0, ""⟩], method]).map (print width) := by
    intro ms
    rw [List.flatMap_map, List.map_flatMap]
    simp only [List.map_cons, List.map_nil, hblank]
  rcases attributes with _ | ⟨field, fields⟩ <;> rcases methods with _ | ⟨one, others⟩
  · simp [members, memberLines, hpass]
  · simp [members, memberLines, hmethods]
  · simp [members, memberLines]
  · have hrest := hmethods (one :: others)
    simp only [members, memberLines, List.map_append, List.map_cons] at hrest ⊢
    rw [hrest]

/-- Among the members of a class stand `pass`, blank lines and the members themselves. -/
theorem mem_memberLines {attributes methods : List (List Line)} {lines : List Line}
    (h : lines ∈ memberLines attributes methods) :
    lines = [⟨0, "pass"⟩] ∨ lines = [⟨0, ""⟩] ∨ lines ∈ attributes ++ methods := by
  rcases attributes with _ | ⟨field, fields⟩ <;> rcases methods with _ | ⟨one, others⟩ <;>
    simp only [memberLines, List.mem_cons, List.mem_append, List.mem_flatMap,
      List.flatMap_nil] at h ⊢ <;> grind

theorem memberLines_ne_nil (attributes methods : List (List Line)) :
    memberLines attributes methods ≠ [] := by
  rcases attributes with _ | ⟨field, fields⟩ <;> rcases methods with _ | ⟨one, others⟩ <;>
    simp [memberLines]

/-- A class is laid out if its members are. -/
theorem Laid.classDef {info : TermInfo} {attributes methods : List Term}
    (hname : Clean header.name) (h : ∀ e ∈ bases ++ decorators, Inline strict e)
    (hmembers : ∀ t ∈ attributes ++ methods, Laid width hints t) :
    Laid width hints (.node info (.classDef header bases decorators attributes methods)) := by
  obtain ⟨hattributes, hmethods⟩ := List.forall_mem_append.mp hmembers
  have hparts : ∀ lines ∈ memberLines
      (attributes.map fun t => statementLines (t, outline hints t))
      (methods.map fun t => statementLines (t, outline hints t)),
      lines ≠ [] ∧ ∀ line ∈ lines, line.Whole := by
    intro lines hlines
    rcases mem_memberLines hlines with rfl | rfl | hlines
    · exact ⟨by simp, List.forall_mem_singleton.mpr (Clean.whole (by decide) 0)⟩
    · exact ⟨by simp, List.forall_mem_singleton.mpr (Clean.whole (by decide) 0)⟩
    · rw [← List.map_append] at hlines
      obtain ⟨t, ht, rfl⟩ := List.mem_map.mp hlines
      exact ⟨(hmembers t ht).statement_ne_nil, (hmembers t ht).whole_statement⟩
  refine of_class (memberLines
      (attributes.map fun t => statementLines (t, outline hints t))
      (methods.map fun t => statementLines (t, outline hints t))).flatten hname h ?_ ?_ ?_ ?_
  · obtain ⟨first, rest, hcons⟩ := List.exists_cons_of_ne_nil (memberLines_ne_nil
      (attributes.map fun t => statementLines (t, outline hints t))
      (methods.map fun t => statementLines (t, outline hints t)))
    rw [hcons, List.flatten_cons]
    exact List.append_ne_nil_of_left_ne_nil (hparts first (hcons ▸ List.mem_cons_self)).1 _
  · intro line hline
    obtain ⟨lines, hlines, hline⟩ := List.mem_flatten.mp hline
    exact (hparts lines hlines).2 line hline
  · exact outline_classDef ..
  · rw [← List.flatMap_id', print_flatMap width fun lines hlines => (hparts lines hlines).1,
      ← members_print, List.map_map, List.map_map, text_node]
    exact (yields_classHead h width hints).bind ((yields_statements hattributes).bind
      ((yields_statements hmethods).bind (yields_pure _)))

end Classes

/-- Printed at any width, the outline of a term is its text. -/
theorem Printable.laid (h : Printable strict t) (width : Nat) (hints : Bool) :
    Laid width hints t := by
  induction h with
  | inline h => exact h.laid width hints
  | block _ _ ih => exact .block ih
  | function hhead _ ih => exact .function hhead ih
  | conditional hcondition _ _ ih ihalternative =>
      exact .conditional hcondition ih ihalternative
  | whileLoop hcondition _ ih => exact .whileLoop hcondition ih
  | forLoop htarget hbound hiterable hconditions _ ih =>
      exact .forLoop htarget hbound hiterable hconditions ih
  | rangeLoop hcounter hbound hbounds _ ih => exact .rangeLoop hcounter hbound hbounds ih
  | classDecl hname h => exact .classDecl hname.clean h
  | classDef hname h _ _ ih => exact .classDef hname.clean h ih

/-! ## Modules -/

/-- Blank lines are those that are printed as the empty text. -/
theorem isBlank_iff {lines : List Line} (width : Nat) :
    isBlank lines = true ↔ print width lines = "" := by
  rcases lines with _ | ⟨line, _ | ⟨next, rest⟩⟩
  · exact ⟨fun _ => rfl, fun _ => rfl⟩
  · rw [isBlank, print_eq_empty_iff, String.isEmpty_iff]
    simp
  · simp [isBlank, print_eq_empty_iff]

theorem print_texts (width : Nat) (ss : List String) :
    print width (ss.map (⟨0, ·⟩)) = joinLines ss := by
  rw [print, List.map_map]
  simp only [Function.comp_def, Line.indented_zero, List.map_id']

/-- The lines of a module are its text. -/
theorem print_moduleLines (width : Nat) (imports : Imports) (lines : List Line) :
    print width (moduleLines imports lines) = moduleText imports (print width lines) := by
  have hbody : (print width lines).isEmpty = isBlank lines :=
    Bool.eq_iff_iff.mpr (String.isEmpty_iff.trans (isBlank_iff width).symm)
  rw [moduleLines, moduleText, hbody, List.isEmpty_map]
  split
  · rfl
  next hheader =>
  split
  · exact print_texts width imports.lines
  · next hblank =>
    have hlines : lines ≠ [] := by
      rintro rfl
      exact hblank rfl
    have himports : imports.lines.map (Line.mk 0) ≠ [] := by simpa using hheader
    rw [print_append width himports (List.cons_ne_nil _ _), print_texts, print_cons _ _ hlines,
      Line.indented_zero]
    simp only [String.append_assoc, String.empty_append]
    rfl

end TypedSyntax.Python
