import TypedSyntax.Proofs.DataType
import TypedSyntax.Proofs.Export.Normal
import TypedSyntax.Proofs.Python.Expression

/-!
# Noted imports

Which imports a text notes while it is written. A node notes what its own text
uses, and what the texts of its children note, except for a loop's target, of
which only the name is written.
-/

namespace TypedSyntax

/-- The second type is the first, or occurs in it at some depth. -/
inductive DataType.Mentions : DataType → DataType → Prop
  | self (t : DataType) : Mentions t t
  | argument {t a s : DataType} : a ∈ t.arguments → Mentions a s → Mentions t s

theorem Payload.exists_mem_mapping {α : Type} {Q : α → Prop} {entries : List (α × α)}
    {type : DataType} :
    (∃ c ∈ (Payload.mapping entries type).printed, Q c) ↔ ∃ e ∈ entries, Q e.1 ∨ Q e.2 := by
  constructor
  · rintro ⟨c, hc, hQ⟩
    obtain ⟨entry, hentry, hc⟩ := List.mem_flatMap.mp hc
    rcases List.mem_cons.mp hc with rfl | hc
    · exact ⟨entry, hentry, .inl hQ⟩
    · exact ⟨entry, hentry, .inr (List.mem_singleton.mp hc ▸ hQ)⟩
  · rintro ⟨entry, hentry, hQ | hQ⟩
    · exact ⟨entry.1, List.mem_flatMap.mpr ⟨entry, hentry, List.mem_cons_self⟩, hQ⟩
    · exact ⟨entry.2, List.mem_flatMap.mpr ⟨entry, hentry, by simp⟩, hQ⟩

namespace Python

/-- What a text may use without defining it. -/
inductive Need where
  | datetime
  | abc
  | any

def Imports.has (imports : Imports) : Need → Bool
  | .datetime => imports.datetime
  | .abc => imports.abc
  | .any => imports.any

variable {A B : Type} {m : Writing A} {P Q : Need → Prop}

/-- The imports that a text in progress notes, whatever was noted before. -/
def Notes (m : Writing A) (P : Need → Prop) : Prop :=
  ∀ imports need, (m.run imports).2.has need = true ↔ imports.has need = true ∨ P need

/-- What is noted may be said in other words. -/
theorem Notes.of_iff (h : Notes m P) (hPQ : ∀ need, P need ↔ Q need) : Notes m Q := by
  intro imports need
  rw [h imports need, hPQ need]

theorem notes_pure (a : A) : Notes (pure a) fun _ => False := by
  intro imports need
  rw [or_false]
  rfl

/-- One after the other, computations note what each of them notes. -/
theorem Notes.bind {f : A → Writing B} (hm : Notes m P) (hf : ∀ a, Notes (f a) Q) :
    Notes (m >>= f) fun need => P need ∨ Q need := by
  intro imports need
  have hrun : (m >>= f).run imports = (f (m.run imports).1).run (m.run imports).2 := rfl
  rw [hrun, hf, hm, or_assoc]

/-- What follows notes nothing. -/
theorem Notes.close {f : A → Writing B} (hm : Notes m P) (hf : ∀ a, Notes (f a) fun _ => False) :
    Notes (m >>= f) P :=
  (hm.bind hf).of_iff fun _ => by rw [or_false]

/-- A list of computations notes what one of them notes. -/
theorem notes_mapM {f : A → Writing B} {R : A → Need → Prop} {xs : List A}
    (h : ∀ x ∈ xs, Notes (f x) (R x)) : Notes (xs.mapM f) fun need => ∃ x ∈ xs, R x need := by
  induction xs with
  | nil => exact (notes_pure []).of_iff fun _ => by simp
  | cons x xs ih =>
      obtain ⟨hx, hxs⟩ := List.forall_mem_cons.mp h
      rw [List.mapM_cons]
      exact (hx.bind fun _ => (ih hxs).close fun _ => notes_pure _).of_iff fun _ => by simp

theorem notes_modify {change : Imports → Imports}
    (h : ∀ imports need, (change imports).has need = true ↔ imports.has need = true ∨ P need) :
    Notes (modify change) P :=
  h

theorem notes_needDatetime : Notes needDatetime (· = .datetime) :=
  notes_modify fun imports need => by cases need <;> simp [Imports.has]

theorem notes_needAbc : Notes needAbc (· = .abc) :=
  notes_modify fun imports need => by cases need <;> simp [Imports.has]

theorem notes_needAny : Notes needAny (· = .any) :=
  notes_modify fun imports need => by cases need <;> simp [Imports.has]

/-! ## Annotations -/

/-- What the word of a type needs. -/
def wordNeed? : DataType → Option Need
  | .date | .time | .dateTime | .timestamp => some .datetime
  | .any => some .any
  | _ => none

/-- What the annotation of a type needs. -/
def HintNeeds (type : DataType) (need : Need) : Prop :=
  ∃ s, type.Mentions s ∧ wordNeed? s = some need

/-- An annotation needs what its own word needs and what its arguments need. -/
theorem hintNeeds_iff {type : DataType} {need : Need} :
    HintNeeds type need ↔ wordNeed? type = some need ∨ ∃ a ∈ type.arguments, HintNeeds a need := by
  constructor
  · rintro ⟨s, hs, hneed⟩
    cases hs with
    | self => exact .inl hneed
    | argument ha hs => exact .inr ⟨_, ha, s, hs, hneed⟩
  · rintro (hneed | ⟨a, ha, s, hs, hneed⟩)
    · exact ⟨type, .self type, hneed⟩
    · exact ⟨s, .argument ha hs, hneed⟩

theorem notes_needTypes {types : List DataType}
    (h : ∀ t ∈ types, Notes (needType t) (HintNeeds t)) :
    Notes (needTypes types) fun need => ∃ t ∈ types, HintNeeds t need := by
  induction types with
  | nil =>
      rw [needTypes]
      exact (notes_pure _).of_iff fun _ => by simp
  | cons t types ih =>
      obtain ⟨ht, htypes⟩ := List.forall_mem_cons.mp h
      rw [needTypes]
      exact (ht.bind fun _ => ih htypes).of_iff fun _ => by simp

/-- An annotation notes what its type mentions, at any depth. -/
theorem notes_needType (t : DataType) : Notes (needType t) (HintNeeds t) := by
  induction t using DataType.induction with
  | step t ih =>
    suffices h : Notes (needType t) fun need =>
        wordNeed? t = some need ∨ ∃ a ∈ t.arguments, HintNeeds a need from
      h.of_iff fun _ => hintNeeds_iff.symm
    cases t with
    | date | time | dateTime | timestamp =>
        rw [needType]
        exact notes_needDatetime.of_iff fun _ => by simp [wordNeed?, DataType.arguments, eq_comm]
    | any =>
        rw [needType]
        exact notes_needAny.of_iff fun _ => by simp [wordNeed?, DataType.arguments, eq_comm]
    | list item | set item =>
        rw [needType]
        have hitem := ih item List.mem_cons_self
        exact hitem.of_iff fun _ => by simp [wordNeed?, DataType.arguments]
    | tuple items =>
        rw [needType]
        exact (notes_needTypes ih).of_iff fun _ => by simp [wordNeed?, DataType.arguments]
    | map key value =>
        obtain ⟨hkey, hvalue⟩ := List.forall_mem_cons.mp ih
        rw [needType]
        exact (hkey.bind fun _ => hvalue value List.mem_cons_self).of_iff fun _ => by
          simp [wordNeed?, DataType.arguments]
    | _ =>
        simp only [needType]
        exact (notes_pure _).of_iff fun _ => by simp [wordNeed?, DataType.arguments]

/-- Without hints an annotation notes nothing. -/
theorem notes_hint (options : PythonOptions) (type : DataType) :
    Notes (annotate options type) fun need =>
      options.typeHints = true ∧ HintNeeds type need := by
  unfold annotate
  split
  · next hon =>
    have htype := (notes_needType type).close fun _ => notes_pure (some (hint type))
    exact htype.of_iff fun _ => by simp [hon]
  · next hoff => exact (notes_pure _).of_iff fun _ => by simp [hoff]

/-! ## Nodes -/

/-- What the text of a node uses itself. -/
def Asks {α : Type} (hints : Bool) : Payload α → Need → Prop
  | .literal (.temporal _) _, need => need = .datetime
  | .declaration declared _, need => hints = true ∧ HintNeeds declared.type need
  | .argument parameter _, need => hints = true ∧ HintNeeds parameter.type need
  | .prototype signature _, need => hints = true ∧ HintNeeds signature.returnType need
  | .classDecl header .., need | .classDef header .., need =>
    header.isAbstract = true ∧ need = .abc
  | _, _ => False

/-- What a node uses itself does not depend on its children. -/
theorem asks_map {α β : Type} {f : α → β} {hints : Bool} {p : Payload α} {need : Need} :
    Asks hints (p.map f) need ↔ Asks hints p need := by
  cases p with
  | literal value type => cases value <;> rfl
  | _ => rfl

section Parts

variable {options : PythonOptions} {part : Part} {parts : List Part} {R : Part → Need → Prop}

theorem notes_texts (h : ∀ c ∈ parts, Notes c.2 (R c)) :
    Notes (texts parts) fun need => ∃ c ∈ parts, R c need :=
  notes_mapM h

theorem notes_valueText {part? : Option Part} (h : ∀ c ∈ part?.toList, Notes c.2 (R c)) :
    Notes (valueText part?) fun need => ∃ c ∈ part?.toList, R c need := by
  cases part? with
  | none => exact (notes_pure none).of_iff fun _ => by simp
  | some part =>
      have hpart := h part List.mem_cons_self
      exact (hpart.close fun _ => notes_pure _).of_iff fun _ => by simp

/-- A comment notes nothing. -/
theorem notes_statement (h : Notes part.2 P) : Notes (statement part) P := by
  apply h.close
  intro text
  split <;> exact notes_pure _

theorem notes_statements (h : ∀ c ∈ parts, Notes c.2 (R c)) :
    Notes (parts.mapM statement) fun need => ∃ c ∈ parts, R c need :=
  notes_mapM fun c hc => notes_statement (h c hc)

theorem notes_body (options : PythonOptions) (h : Notes part.2 P) : Notes (body options part) P :=
  h.close fun _ => notes_pure _

/-- The brackets of an operand note nothing. -/
theorem notes_operand (h : Notes part.2 P) : Notes (operand part) P := by
  apply h.close
  intro text
  split <;> exact notes_pure _

/-- Of a target only the name is written. -/
theorem notes_target (h : (boundName? part.1).isSome = true) :
    Notes (target part) fun _ => False := by
  unfold target
  unfold boundName? at h
  split
  · exact notes_pure _
  · exact notes_pure _
  · next hvariable hdeclaration =>
    split at h
    · next hp => exact absurd hp (hvariable _ _)
    · next hp => exact absurd hp (hdeclaration _ _)
    · cases h

/-- A filter notes what its conditions note. -/
theorem notes_conjunction (h : ∀ c ∈ parts, Notes c.2 (R c)) :
    Notes (conjunction parts) fun need => ∃ c ∈ parts, R c need := by
  unfold conjunction
  split
  · next single => exact (h single List.mem_cons_self).of_iff fun _ => by simp
  · exact (notes_mapM fun c hc => notes_operand (h c hc)).close fun _ => notes_pure _

/-- The header of an abstract class notes the module of abstract classes. -/
theorem notes_classHead (header : ClassHeader) {bases decorators : List Part}
    (hbases : ∀ c ∈ bases, Notes c.2 (R c)) (hdecorators : ∀ c ∈ decorators, Notes c.2 (R c)) :
    Notes (classHead header bases decorators) fun need =>
      (∃ c ∈ decorators, R c need) ∨ (∃ c ∈ bases, R c need) ∨
        (header.isAbstract = true ∧ need = .abc) := by
  refine Notes.bind (notes_texts hdecorators) fun above =>
    Notes.bind (notes_texts hbases) fun names => ?_
  split
  · next habstract =>
    exact (notes_needAbc.close fun _ => notes_pure _).of_iff fun _ => by simp [habstract]
  · next habstract => exact (notes_pure _).of_iff fun _ => by simp [habstract]

end Parts

/-- What the texts of a node's children note. Of a target only the name is written. -/
structure ChildNotes (R : Part → Need → Prop) (p : Payload Part) : Prop where
  printed : ∀ c ∈ p.printed, Notes c.2 (R c)
  target : ∀ t ∈ p.target?, (boundName? t.1).isSome = true

/-- What a node uses itself, and what its printed children note. -/
def Gathers (hints : Bool) (R : Part → Need → Prop) (p : Payload Part) (need : Need) : Prop :=
  Asks hints p need ∨ ∃ c ∈ p.printed, R c need

/-- A node that uses nothing itself notes what its printed children note. -/
theorem Notes.gathers {hints : Bool} {R : Part → Need → Prop} {p : Payload Part}
    (hasks : ∀ need, ¬Asks hints p need) (h : Notes m P)
    (hP : ∀ need, P need ↔ ∃ c ∈ p.printed, R c need) : Notes m (Gathers hints R p) :=
  h.of_iff fun need => (hP need).trans (or_iff_right (hasks need)).symm

section Rules

variable {options : PythonOptions} {R : Part → Need → Prop} {part : Part} {type : DataType}

/-- A temporal literal notes the module of dates, a literal of another type nothing. -/
theorem notes_literal (value : LiteralValue) :
    Notes (literal value type) (Gathers options.typeHints R (.literal value type)) := by
  cases value with
  | bool b =>
      cases b <;> exact (notes_pure _).of_iff fun _ => by
        simp [Gathers, Asks, Payload.printed, Payload.children]
  | temporal s =>
      apply (notes_needDatetime.close fun _ => notes_pure _).of_iff
      simp [Gathers, Asks, Payload.printed, Payload.children]
  | _ =>
      apply (notes_pure _).of_iff
      simp [Gathers, Asks, Payload.printed, Payload.children]

theorem notes_writeCollection {kind : CollectionKind} {elements : List Part}
    (h : ChildNotes R (.collection kind elements type)) :
    Notes (writeCollection kind elements)
      (Gathers options.typeHints R (.collection kind elements type)) := by
  refine Notes.gathers (fun _ => id) ((notes_texts h.printed).close fun _ => notes_pure _) ?_
  simp [Payload.printed]

theorem notes_writeMapping {entries : List (Part × Part)}
    (h : ChildNotes R (.mapping entries type)) :
    Notes (writeMapping entries) (Gathers options.typeHints R (.mapping entries type)) := by
  have hentry : ∀ entry ∈ entries,
      Notes (writeEntry entry) fun need => R entry.1 need ∨ R entry.2 need := by
    intro entry hentry
    have hkey := h.printed entry.1 (List.mem_flatMap.mpr ⟨entry, hentry, by simp⟩)
    have hvalue := h.printed entry.2 (List.mem_flatMap.mpr ⟨entry, hentry, by simp⟩)
    exact hkey.bind fun _ => hvalue.close fun _ => notes_pure _
  refine Notes.gathers (fun _ => id) ((notes_mapM hentry).close fun _ => notes_pure _) ?_
  exact fun need => (Payload.exists_mem_mapping (Q := fun c => R c need)).symm

/-- A declaration notes its annotation and its value. -/
theorem notes_writeDeclaration {declared : Declaration} {value : Option Part}
    (h : ChildNotes R (.declaration declared value)) :
    Notes (writeDeclaration options declared value)
      (Gathers options.typeHints R (.declaration declared value)) := by
  apply ((notes_valueText h.printed).bind fun _ =>
    (notes_hint _ _).close fun _ => notes_pure _).of_iff
  simp [Gathers, Asks, Payload.printed, Payload.children, or_comm]

theorem notes_writeArgument {declared : Parameter} {default : Option Part}
    (h : ChildNotes R (.argument declared default)) :
    Notes (writeArgument options declared default)
      (Gathers options.typeHints R (.argument declared default)) := by
  apply ((notes_valueText h.printed).bind fun _ =>
    (notes_hint _ _).close fun _ => notes_pure _).of_iff
  simp [Gathers, Asks, Payload.printed, Payload.children, or_comm]

theorem notes_writeAssignment {name : String} (h : ChildNotes R (.assignment name part)) :
    Notes (writeAssignment name part) (Gathers options.typeHints R (.assignment name part)) := by
  have hpart := h.printed part List.mem_cons_self
  refine Notes.gathers (fun _ => id) (hpart.close fun _ => notes_pure _) ?_
  simp [Payload.printed, Payload.children]

theorem notes_writeUnary {op : UnaryOperator} (h : ChildNotes R (.unary op part type)) :
    Notes (writeUnary op part) (Gathers options.typeHints R (.unary op part type)) := by
  have hpart := notes_operand (h.printed part List.mem_cons_self)
  refine Notes.gathers (fun _ => id) (hpart.close fun _ => notes_pure _) ?_
  simp [Payload.printed, Payload.children]

theorem notes_writeBinary {op : BinaryOperator} {lhs rhs : Part}
    (h : ChildNotes R (.binary op lhs rhs type)) :
    Notes (writeBinary op lhs rhs) (Gathers options.typeHints R (.binary op lhs rhs type)) := by
  obtain ⟨hlhs, hrhs⟩ := List.forall_mem_cons.mp h.printed
  refine Notes.gathers (fun _ => id) ((notes_operand hlhs).bind fun _ =>
    (notes_operand (hrhs rhs List.mem_cons_self)).close fun _ => notes_pure _) ?_
  simp [Payload.printed, Payload.children]

/-- A cast notes its operand, whether it is written as a call or not. -/
theorem notes_writeCast (h : ChildNotes R (.cast part type)) :
    Notes (writeCast part type) (Gathers options.typeHints R (.cast part type)) := by
  have hpart := h.printed part List.mem_cons_self
  refine Notes.gathers (fun _ => id) (hpart.close fun _ => by split <;> exact notes_pure _) ?_
  simp [Payload.printed, Payload.children]

theorem notes_writeBlock {name : String} {nodes : List Part}
    (h : ChildNotes R (.block name nodes)) :
    Notes (writeBlock nodes) (Gathers options.typeHints R (.block name nodes)) := by
  unfold writeBlock
  split
  · next hempty =>
    refine Notes.gathers (fun _ => id) (notes_pure _) ?_
    simp [Payload.printed, Payload.children, List.isEmpty_iff.mp hempty]
  · refine Notes.gathers (fun _ => id) ((notes_statements h.printed).close fun _ => notes_pure _) ?_
    simp [Payload.printed]

/-- A prototype notes its arguments and the annotation of its return type. -/
theorem notes_writePrototype (isMethod : Bool) {signature : Signature} {arguments : List Part}
    (h : ChildNotes R (.prototype signature arguments)) :
    Notes (writePrototype options isMethod signature arguments)
      (Gathers options.typeHints R (.prototype signature arguments)) := by
  apply ((notes_texts h.printed).bind fun _ =>
    (notes_hint _ _).close fun _ => notes_pure _).of_iff
  simp [Gathers, Asks, Payload.printed, Payload.children, or_comm]

theorem notes_writeFunction {head : Part} (h : ChildNotes R (.function head part)) :
    Notes (writeFunction options head part)
      (Gathers options.typeHints R (.function head part)) := by
  obtain ⟨hhead, hpart⟩ := List.forall_mem_cons.mp h.printed
  refine Notes.gathers (fun _ => id) (hhead.bind fun _ =>
    (notes_body options (hpart part List.mem_cons_self)).close fun _ => notes_pure _) ?_
  simp [Payload.printed, Payload.children]

theorem notes_writeCall {callee : String} {arguments : List Part}
    (h : ChildNotes R (.call callee arguments type)) :
    Notes (writeCall callee arguments)
      (Gathers options.typeHints R (.call callee arguments type)) := by
  refine Notes.gathers (fun _ => id) ((notes_texts h.printed).close fun _ => notes_pure _) ?_
  simp [Payload.printed]

theorem notes_writeReturn {value : Option Part} (h : ChildNotes R (.returning value)) :
    Notes (writeReturn value) (Gathers options.typeHints R (.returning value)) := by
  cases value with
  | none =>
      refine Notes.gathers (fun _ => id) (notes_pure _) ?_
      simp [Payload.printed, Payload.children]
  | some value =>
      have hvalue := h.printed value List.mem_cons_self
      refine Notes.gathers (fun _ => id) (hvalue.close fun _ => notes_pure _) ?_
      simp [Payload.printed, Payload.children]

/-- An alternative notes the same as a chained condition and as a block. -/
theorem notes_writeElse {alternative : Option Part}
    (h : ∀ c ∈ alternative.toList, Notes c.2 (R c)) :
    Notes (writeElse options alternative) fun need => ∃ c ∈ alternative.toList, R c need := by
  cases alternative with
  | none => exact (notes_pure _).of_iff fun _ => by simp
  | some block =>
      have hblock := h block List.mem_cons_self
      have hlast : Notes (writeElse options (some block)) (R block) := by
        rw [writeElse]
        split
        · exact hblock.close fun _ => notes_pure _
        · exact (notes_body options hblock).close fun _ => notes_pure _
      exact hlast.of_iff fun _ => by simp

theorem notes_writeConditional {condition consequent : Part} {alternative : Option Part}
    (h : ChildNotes R (.conditional condition consequent alternative)) :
    Notes (writeConditional options condition consequent alternative)
      (Gathers options.typeHints R (.conditional condition consequent alternative)) := by
  obtain ⟨hcondition, hrest⟩ := List.forall_mem_cons.mp h.printed
  obtain ⟨hconsequent, halternative⟩ := List.forall_mem_cons.mp hrest
  refine Notes.gathers (fun _ => id) (hcondition.bind fun _ =>
    (notes_body options hconsequent).bind fun _ =>
      (notes_writeElse halternative).close fun _ => notes_pure _) ?_
  simp [Payload.printed, Payload.children]

theorem notes_writeWhile {condition : Part} (h : ChildNotes R (.whileLoop condition part)) :
    Notes (writeWhile options condition part)
      (Gathers options.typeHints R (.whileLoop condition part)) := by
  obtain ⟨hcondition, hpart⟩ := List.forall_mem_cons.mp h.printed
  refine Notes.gathers (fun _ => id) (hcondition.bind fun _ =>
    (notes_body options (hpart part List.mem_cons_self)).close fun _ => notes_pure _) ?_
  simp [Payload.printed, Payload.children]

/-- A filter around a body notes its conditions. -/
theorem notes_filtered {conditions : List Part} (h : ∀ c ∈ conditions, Notes c.2 (R c))
    (inner : String) :
    Notes (filtered options conditions inner) fun need => ∃ c ∈ conditions, R c need := by
  unfold filtered
  split
  · next hempty => exact (notes_pure _).of_iff fun _ => by simp [List.isEmpty_iff.mp hempty]
  · exact (notes_conjunction h).close fun _ => notes_pure _

/-- The target of a loop is written as a name, which notes nothing. -/
theorem notes_writeFor {names iterable : Part} {conditions : List Part}
    (h : ChildNotes R (.forLoop names iterable conditions part)) :
    Notes (writeFor options names iterable conditions part)
      (Gathers options.typeHints R (.forLoop names iterable conditions part)) := by
  obtain ⟨hiterable, hrest⟩ := List.forall_mem_cons.mp h.printed
  obtain ⟨hconditions, hpart⟩ := List.forall_mem_append.mp hrest
  have hnames := notes_target (h.target names rfl)
  refine Notes.gathers (fun _ => id) (hnames.bind fun _ => hiterable.bind fun _ =>
    (notes_body options (hpart part List.mem_cons_self)).bind fun inner =>
      (notes_filtered hconditions inner).close fun _ => notes_pure _) ?_
  intro need
  simp only [Payload.printed, List.mem_append, List.mem_cons]
  grind

theorem notes_writeRange {counter start stop : Part} {step : Option Part}
    (h : ChildNotes R (.rangeLoop counter start stop step part)) :
    Notes (writeRange options counter start stop step part)
      (Gathers options.typeHints R (.rangeLoop counter start stop step part)) := by
  obtain ⟨hstart, hrest⟩ := List.forall_mem_cons.mp h.printed
  obtain ⟨hstop, hrest⟩ := List.forall_mem_cons.mp hrest
  obtain ⟨hstep, hpart⟩ := List.forall_mem_append.mp hrest
  have hcounter := notes_target (h.target counter rfl)
  refine Notes.gathers (fun _ => id) (hcounter.bind fun _ => hstart.bind fun _ =>
    hstop.bind fun _ => (notes_valueText hstep).bind fun _ =>
      (notes_body options (hpart part List.mem_cons_self)).close fun _ => notes_pure _) ?_
  intro need
  simp only [Payload.printed, List.mem_append, List.mem_cons]
  grind

theorem notes_writeClause {names iterable : Part} {conditions : List Part} {isAsync : Bool}
    (h : ChildNotes R (.clause names iterable conditions isAsync)) :
    Notes (writeClause names iterable conditions isAsync)
      (Gathers options.typeHints R (.clause names iterable conditions isAsync)) := by
  obtain ⟨hiterable, hconditions⟩ := List.forall_mem_cons.mp h.printed
  have hnames := notes_target (h.target names rfl)
  refine Notes.gathers (fun _ => id) (hnames.bind fun _ => hiterable.bind fun _ =>
    (notes_texts hconditions).close fun _ => notes_pure _) ?_
  simp [Payload.printed]

theorem notes_writeComprehension {kind : ComprehensionKind} {element : Part}
    {generators : List Part} (h : ChildNotes R (.comprehension kind element generators type)) :
    Notes (writeComprehension kind element generators)
      (Gathers options.typeHints R (.comprehension kind element generators type)) := by
  obtain ⟨helement, hgenerators⟩ := List.forall_mem_cons.mp h.printed
  refine Notes.gathers (fun _ => id) (helement.bind fun _ =>
    (notes_texts hgenerators).close fun _ => by cases kind <;> exact notes_pure _) ?_
  simp [Payload.printed, Payload.children]

theorem notes_writeClassDecl {header : ClassHeader} {bases decorators : List Part}
    (h : ChildNotes R (.classDecl header bases decorators)) :
    Notes (writeClassDecl options header bases decorators)
      (Gathers options.typeHints R (.classDecl header bases decorators)) := by
  obtain ⟨hbases, hdecorators⟩ := List.forall_mem_append.mp h.printed
  apply ((notes_classHead header hbases hdecorators).close fun _ => notes_pure _).of_iff
  intro need
  simp only [Gathers, Asks, Payload.printed, Payload.children, List.mem_append]
  grind

/-- A class notes its header and all of its members. -/
theorem notes_writeClassDef {header : ClassHeader} {bases decorators attributes methods : List Part}
    (h : ChildNotes R (.classDef header bases decorators attributes methods)) :
    Notes (writeClassDef options header bases decorators attributes methods)
      (Gathers options.typeHints R (.classDef header bases decorators attributes methods)) := by
  obtain ⟨hrest, hmethods⟩ := List.forall_mem_append.mp h.printed
  obtain ⟨hrest, hattributes⟩ := List.forall_mem_append.mp hrest
  obtain ⟨hbases, hdecorators⟩ := List.forall_mem_append.mp hrest
  apply ((notes_classHead header hbases hdecorators).bind fun _ =>
    (notes_statements hattributes).bind fun _ =>
      (notes_statements hmethods).close fun _ => notes_pure _).of_iff
  intro need
  simp only [Gathers, Asks, Payload.printed, Payload.children, List.mem_append]
  grind

end Rules

/-- Outside of modules, a node notes what its own text uses and what the texts
of its printed children note. -/
theorem notes_nodeText {options : PythonOptions} (info : TermInfo) {p : Payload Part}
    {R : Part → Need → Prop} (hmodule : p.kind ≠ .module) (h : ChildNotes R p) :
    Notes (nodeText options info p) (Gathers options.typeHints R p) := by
  cases p with
  | literal value => exact notes_literal value
  | «variable» | breaking | continuing =>
      refine Notes.gathers (fun _ => id) (notes_pure _) ?_
      simp [Payload.printed, Payload.children]
  | collection => exact notes_writeCollection h
  | mapping => exact notes_writeMapping h
  | declaration => exact notes_writeDeclaration h
  | assignment => exact notes_writeAssignment h
  | unary => exact notes_writeUnary h
  | binary => exact notes_writeBinary h
  | cast => exact notes_writeCast h
  | block => exact notes_writeBlock h
  | module => exact absurd rfl hmodule
  | argument => exact notes_writeArgument h
  | prototype => exact notes_writePrototype info.isMethod h
  | function => exact notes_writeFunction h
  | call => exact notes_writeCall h
  | returning => exact notes_writeReturn h
  | conditional => exact notes_writeConditional h
  | whileLoop => exact notes_writeWhile h
  | forLoop => exact notes_writeFor h
  | rangeLoop => exact notes_writeRange h
  | clause => exact notes_writeClause h
  | comprehension => exact notes_writeComprehension h
  | classDecl => exact notes_writeClassDecl h
  | classDef => exact notes_writeClassDef h

end Python

end TypedSyntax
