import TypedSyntax.Proofs.Typing
import TypedSyntax.Proofs.Workspace.Run

/-!
# Well-formed slots

What the rules of each kind of node say about its slots, as a judgement on the
payload. A checked draft obeys them, and since nodes keep their kinds, types
and declared names, no later change breaks them.
-/

namespace TypedSyntax.Tree

variable {tree tree' : Tree} {id : NodeId}

/-! ## Views of nodes -/

/-- An expression of a type. -/
def HasType (tree : Tree) (id : NodeId) (type : DataType) : Prop :=
  tree.typeOf id = .ok (some type)

def IsExpression (tree : Tree) (id : NodeId) : Prop :=
  ∃ type, tree.HasType id type

def HasKind (tree : Tree) (kind : Kind) (id : NodeId) : Prop :=
  tree.kind id = .ok kind

def IsCondition (tree : Tree) (id : NodeId) : Prop :=
  ∃ type, tree.HasType id type ∧ (type = .boolean ∨ type = .any)

/-- An expression whose values a binding of the declared type may hold. -/
def Suits (tree : Tree) (declared : DataType) (id : NodeId) : Prop :=
  ∃ type, tree.HasType id type ∧ declared.accepts type = true

/-- A bound of a counted loop whose counter has the declared type. -/
def IsBound (tree : Tree) (declared : DataType) (id : NodeId) : Prop :=
  ∃ type, tree.HasType id type ∧ (type.isInteger = true ∨ type = .any) ∧
    declared.accepts type = true

/-- A variable, or a declaration without a value, that may hold elements of a
type. -/
inductive IsTarget (tree : Tree) (element : DataType) (id : NodeId) : Prop
  | variable {name type} : tree.payload id = .ok (.variable name type) →
      type.accepts element = true → IsTarget tree element id
  | declaration {declared} : tree.payload id = .ok (.declaration declared none) →
      declared.type.accepts element = true → IsTarget tree element id

/-- A node that may stand in a block or module. -/
def IsStatement (tree : Tree) (id : NodeId) : Prop :=
  ∃ kind, tree.HasKind kind id ∧ kind ∉ [Kind.module, .argument, .prototype, .clause]

/-- The header of a loop or clause: its target may hold the elements of its
iterable. -/
structure IsIteration (tree : Tree) (target iterable : NodeId) (conditions : List NodeId) :
    Prop where
  elements : ∃ type element, tree.HasType iterable type ∧ DataType.Iterates type element ∧
    tree.IsTarget element target
  conditions : ∀ c ∈ conditions, tree.IsCondition c

/-! ## The rules of the slots -/

/-- The type of a collection of elements of some types. -/
inductive CollectionTyping : CollectionKind → List DataType → DataType → Prop
  | list {ts t} : DataType.Common ts t → CollectionTyping .list ts (.list t)
  | emptyList : CollectionTyping .list [] .bareList
  | set {ts t} : DataType.Common ts t → CollectionTyping .set ts (.set t)
  | emptySet : CollectionTyping .set [] .bareSet
  | tuple {ts} : CollectionTyping .tuple ts (.tuple ts)

/-- The type of a mapping with keys and values of some types. -/
inductive MappingTyping : List DataType → List DataType → DataType → Prop
  | entries {ks vs k v} : DataType.Common ks k → DataType.Common vs v →
      MappingTyping ks vs (.map k v)
  | empty : MappingTyping [] [] .bareMap

/-- The rules for the slots and the stored type of a node, one for each kind. -/
inductive Fits (tree : Tree) : Payload NodeId → Prop
  | literal {value type} : Fits tree (.literal value type)
  | collection {kind elements types type} : List.Forall₂ tree.HasType elements types →
      CollectionTyping kind types type → Fits tree (.collection kind elements type)
  | mapping {entries keys values type} :
      List.Forall₂ tree.HasType (entries.map Prod.fst) keys →
      List.Forall₂ tree.HasType (entries.map Prod.snd) values →
      MappingTyping keys values type → Fits tree (.mapping entries type)
  | variable {name type} : Fits tree (.variable name type)
  | declaration {declared value} : (∀ v ∈ value, tree.Suits declared.type v) →
      Fits tree (.declaration declared value)
  | assignment {name value} : tree.IsExpression value → Fits tree (.assignment name value)
  | unary {op operand type result} : tree.HasType operand type → UnaryTyping op type result →
      Fits tree (.unary op operand result)
  | binary {op lhs rhs left right result} : tree.HasType lhs left → tree.HasType rhs right →
      BinaryTyping op left right result → Fits tree (.binary op lhs rhs result)
  | cast {operand type} : tree.IsExpression operand → Fits tree (.cast operand type)
  | block {name nodes} : (∀ n ∈ nodes, tree.IsStatement n) → Fits tree (.block name nodes)
  | module {name nodes} : (∀ n ∈ nodes, tree.IsStatement n) → Fits tree (.module name nodes)
  | argument {parameter default} : (∀ v ∈ default, tree.Suits parameter.type v) →
      Fits tree (.argument parameter default)
  | prototype {signature arguments} : (∀ a ∈ arguments, tree.HasKind .argument a) →
      Fits tree (.prototype signature arguments)
  | function {head body} : tree.HasKind .prototype head → tree.HasKind .block body →
      Fits tree (.function head body)
  | call {callee arguments type} : (∀ a ∈ arguments, tree.IsExpression a) →
      Fits tree (.call callee arguments type)
  | returning {value} : (∀ v ∈ value, tree.IsExpression v) → Fits tree (.returning value)
  | conditional {condition consequent alternative} : tree.IsCondition condition →
      tree.HasKind .block consequent → (∀ b ∈ alternative, tree.HasKind .block b) →
      Fits tree (.conditional condition consequent alternative)
  | whileLoop {condition body} : tree.IsCondition condition → tree.HasKind .block body →
      Fits tree (.whileLoop condition body)
  | forLoop {target iterable conditions body} : tree.IsIteration target iterable conditions →
      tree.HasKind .block body → Fits tree (.forLoop target iterable conditions body)
  | rangeLoop {counter start stop step body declared} :
      tree.payload counter = .ok (.declaration declared none) →
      declared.type.isInteger = true ∨ declared.type = .any →
      (∀ bound ∈ start :: stop :: step.toList, tree.IsBound declared.type bound) →
      tree.HasKind .block body → Fits tree (.rangeLoop counter start stop step body)
  | breaking : Fits tree .breaking
  | continuing : Fits tree .continuing
  | clause {target iterable conditions isAsync} : tree.IsIteration target iterable conditions →
      Fits tree (.clause target iterable conditions isAsync)
  | comprehension {kind element generators type} : generators ≠ [] →
      (∀ g ∈ generators, tree.HasKind .clause g) → tree.HasType element type →
      Fits tree (.comprehension kind element generators (comprehensionType kind type))
  | classDecl {header bases decorators} : (∀ e ∈ bases ++ decorators, tree.IsExpression e) →
      Fits tree (.classDecl header bases decorators)
  | classDef {header bases decorators attributes methods} :
      (∀ e ∈ bases ++ decorators, tree.IsExpression e) →
      (∀ a ∈ attributes, tree.HasKind .declaration a) →
      (∀ m ∈ methods, tree.HasKind .function m) →
      Fits tree (.classDef header bases decorators attributes methods)

/-- Every node obeys the rules of its kind. -/
def WellFormed (tree : Tree) : Prop :=
  ∀ id payload, tree.payload id = .ok payload → tree.Fits payload

/-! ## When checks succeed -/

theorem typed_eq_ok_iff {α : Type} {x : Except TypeError α} {a : α} :
    typed x = .ok a ↔ x = .ok a := by
  cases x <;> simp [typed]

theorem expressionType_eq_ok_iff {type : DataType} :
    tree.expressionType id = .ok type ↔ tree.HasType id type := by
  simp only [expressionType, bind_eq_ok_iff, look_eq_ok_iff, HasType, typeOf, map_eq_ok_iff]
  constructor
  · rintro ⟨node, hnode, hcheck⟩
    cases htype : node.payload.valueType? with
    | none => simp [htype] at hcheck
    | some found =>
        simp only [htype, pure_eq_ok_iff] at hcheck
        exact ⟨node, hnode, hcheck ▸ htype⟩
  · rintro ⟨node, hnode, htype⟩
    exact ⟨node, hnode, by simp [htype]⟩

/-- The expressions have the types that are found, one by one. -/
theorem expressionTypes_eq_ok_iff {ids : List NodeId} {types : List DataType} :
    tree.expressionTypes ids = .ok types ↔ List.Forall₂ tree.HasType ids types := by
  simp only [expressionTypes, mapM_eq_ok_iff, expressionType_eq_ok_iff]

theorem isExpression_of_types {ids : List NodeId} {types : List DataType}
    (h : List.Forall₂ tree.HasType ids types) : ∀ e ∈ ids, tree.IsExpression e := by
  induction h with
  | nil => simp
  | cons hid _ ih => exact List.forall_mem_cons.mpr ⟨⟨_, hid⟩, ih⟩

theorem expectKind_eq_ok_iff {slot : Slot} {kind : Kind} :
    tree.expectKind slot kind id = .ok () ↔ tree.HasKind kind id := by
  simp only [expectKind, bind_eq_ok_iff, look_eq_ok_iff, HasKind]
  constructor
  · rintro ⟨found, hfound, hcheck⟩
    split at hcheck
    · next he => exact he ▸ hfound
    · cases hcheck
  · intro h
    exact ⟨kind, h, by simp⟩

theorem expectCondition_eq_ok_iff : tree.expectCondition id = .ok () ↔ tree.IsCondition id := by
  simp only [expectCondition, bind_eq_ok_iff, expressionType_eq_ok_iff, IsCondition]
  constructor
  · rintro ⟨type, htype, hcheck⟩
    split at hcheck
    · next he =>
      exact ⟨type, htype, by simpa [DataType.isBoolean_iff, DataType.isAny_iff] using he⟩
    · cases hcheck
  · rintro ⟨type, htype, he⟩
    exact ⟨type, htype, by simp [DataType.isBoolean_iff, DataType.isAny_iff, he]⟩

theorem expectInteger_eq_ok_iff {type : DataType} :
    tree.expectInteger id = .ok type ↔
      tree.HasType id type ∧ (type.isInteger = true ∨ type = .any) := by
  simp only [expectInteger, bind_eq_ok_iff, expressionType_eq_ok_iff]
  constructor
  · rintro ⟨found, hfound, hcheck⟩
    split at hcheck
    · next he =>
      obtain rfl := pure_eq_ok_iff.mp hcheck
      exact ⟨hfound, by simpa [DataType.isAny_iff] using he⟩
    · cases hcheck
  · rintro ⟨htype, he⟩
    exact ⟨type, htype, by simp [DataType.isAny_iff, he]⟩

theorem expectAccepted_eq_ok_iff {name : String} {declared found : DataType} :
    expectAccepted name declared found = .ok () ↔ declared.accepts found = true := by
  unfold expectAccepted
  split <;> simp_all

/-- A target that is expected and found may hold the elements. -/
theorem isTarget_of_expectTarget {element : DataType}
    (h : tree.expectTarget id element = .ok ()) : tree.IsTarget element id := by
  simp only [expectTarget, bind_eq_ok_iff, look_eq_ok_iff] at h
  obtain ⟨payload, hpayload, h⟩ := h
  split at h
  · exact IsTarget.variable hpayload (expectAccepted_eq_ok_iff.mp h)
  · exact IsTarget.declaration hpayload (expectAccepted_eq_ok_iff.mp h)
  · cases h

theorem isStatement_eq_true_iff {kind : Kind} :
    isStatement kind = true ↔ kind ∉ [Kind.module, .argument, .prototype, .clause] := by
  cases kind <;> decide

theorem expectStatement_eq_ok_iff : expectStatement tree id = .ok () ↔ tree.IsStatement id := by
  simp only [expectStatement, bind_eq_ok_iff, look_eq_ok_iff, expectStatementKind_eq_ok_iff,
    isStatement_eq_true_iff, IsStatement, HasKind]

/-- An initial value that is expected and found suits the declared type. -/
theorem suits_of_expectInitial {name : String} {declared : DataType} {value : Option NodeId}
    (h : expectInitial tree name declared value = .ok ()) : ∀ v ∈ value, tree.Suits declared v := by
  intro v hv
  obtain rfl := Option.mem_def.mp hv
  simp only [expectInitial, bind_eq_ok_iff, expressionType_eq_ok_iff,
    expectAccepted_eq_ok_iff] at h
  exact h

/-- An iteration that is expected and found is well-typed. -/
theorem isIteration_of_expectIteration {target iterable : NodeId} {conditions : List NodeId}
    (h : expectIteration tree target iterable conditions = .ok ()) :
    tree.IsIteration target iterable conditions := by
  simp only [expectIteration, bind_eq_ok_iff (A := DataType), check_bind_eq_ok_iff,
    typed_eq_ok_iff, expressionType_eq_ok_iff, DataType.element_eq_ok_iff, forM_eq_ok_iff,
    expectCondition_eq_ok_iff] at h
  obtain ⟨type, htype, element, helement, htarget, hconditions⟩ := h
  exact ⟨⟨type, element, htype, helement, isTarget_of_expectTarget htarget⟩, hconditions⟩

/-- Arguments that are expected and found are expressions. -/
theorem isExpression_of_expectArguments {parameters : List (Parameter × Bool)}
    {arguments : List NodeId} (h : expectArguments tree parameters arguments = .ok ())
    (hlength : arguments.length ≤ parameters.length) : ∀ a ∈ arguments, tree.IsExpression a := by
  simp only [expectArguments, forM_eq_ok_iff, bind_eq_ok_iff, expressionType_eq_ok_iff] at h
  intro a ha
  obtain ⟨i, hi, rfl⟩ := List.mem_iff_getElem.mp ha
  have hpair : (parameters[i], arguments[i]) ∈ parameters.zip arguments :=
    List.mem_iff_getElem.mpr ⟨i, by simp; omega, by simp⟩
  obtain ⟨type, htype, -⟩ := h _ hpair
  exact ⟨type, htype⟩

/-- The computed type of a collection obeys the rule of its kind. -/
theorem collectionTyping_collectionType (kind : CollectionKind) (types : List DataType) :
    CollectionTyping kind types (collectionType kind types) := by
  cases kind with
  | tuple => exact CollectionTyping.tuple
  | list =>
      cases hc : DataType.common? types with
      | none =>
          obtain rfl := DataType.common?_eq_none_iff.mp hc
          exact CollectionTyping.emptyList
      | some t =>
          simp only [collectionType, hc]
          exact CollectionTyping.list (DataType.common?_eq_some_iff.mp hc)
  | set =>
      cases hc : DataType.common? types with
      | none =>
          obtain rfl := DataType.common?_eq_none_iff.mp hc
          exact CollectionTyping.emptySet
      | some t =>
          simp only [collectionType, hc]
          exact CollectionTyping.set (DataType.common?_eq_some_iff.mp hc)

/-- The computed type of a mapping obeys the rule. -/
theorem mappingTyping_mappingType {keys values : List DataType}
    (h : keys.length = values.length) :
    MappingTyping keys values (mappingType keys values) := by
  cases hk : DataType.common? keys with
  | none =>
      obtain rfl := DataType.common?_eq_none_iff.mp hk
      obtain rfl := List.length_eq_zero_iff.mp h.symm
      exact MappingTyping.empty
  | some k =>
      cases hv : DataType.common? values with
      | none =>
          obtain rfl := DataType.common?_eq_none_iff.mp hv
          obtain rfl := List.length_eq_zero_iff.mp h
          cases hk
      | some v =>
          simp only [mappingType, hk, hv]
          exact MappingTyping.entries (DataType.common?_eq_some_iff.mp hk)
            (DataType.common?_eq_some_iff.mp hv)

/-! ## Checked drafts -/

section Drafts

variable {payload : Payload NodeId}

theorem fits_of_literal {value : LiteralValue} {type : DataType}
    (h : tree.payload? (.literal value type) = .ok payload) : tree.Fits payload := by
  unfold payload? at h
  dsimp only at h
  split at h
  · obtain rfl := Except.ok.inj h
    exact Fits.literal
  · cases h

theorem fits_of_collection {kind : CollectionKind} {elements : List NodeId}
    (h : tree.payload? (.collection kind elements) = .ok payload) : tree.Fits payload := by
  unfold payload? at h
  simp only [bind_eq_ok_iff, pure_eq_ok_iff, expressionTypes_eq_ok_iff] at h
  obtain ⟨types, htypes, rfl⟩ := h
  exact Fits.collection htypes (collectionTyping_collectionType kind types)

theorem fits_of_mapping {entries : List (NodeId × NodeId)}
    (h : tree.payload? (.mapping entries) = .ok payload) : tree.Fits payload := by
  unfold payload? at h
  simp only [bind_eq_ok_iff, pure_eq_ok_iff, mapM_eq_ok_iff,
    expressionType_eq_ok_iff] at h
  obtain ⟨types, htypes, rfl⟩ := h
  have htyped : List.Forall₂ (fun entry (type : DataType × DataType) =>
      tree.HasType entry.1 type.1 ∧ tree.HasType entry.2 type.2) entries types := by
    apply htypes.imp
    rintro entry type ⟨key, hkey, value, hvalue, rfl⟩
    exact ⟨hkey, hvalue⟩
  apply Fits.mapping _ _ (mappingTyping_mappingType (by simp))
  · rw [List.forall₂_map_left_iff, List.forall₂_map_right_iff]
    exact htyped.imp fun _ _ ht => ht.1
  · rw [List.forall₂_map_left_iff, List.forall₂_map_right_iff]
    exact htyped.imp fun _ _ ht => ht.2

theorem fits_of_declaration {declared : Declaration} {value : Option NodeId}
    (h : tree.payload? (.declaration declared value) = .ok payload) : tree.Fits payload := by
  unfold payload? at h
  simp only [check_bind_eq_ok_iff, pure_eq_ok_iff] at h
  obtain ⟨hvalue, rfl⟩ := h
  exact Fits.declaration (suits_of_expectInitial hvalue)

theorem fits_of_argument {parameter : Parameter} {default : Option NodeId}
    (h : tree.payload? (.argument parameter default) = .ok payload) : tree.Fits payload := by
  unfold payload? at h
  simp only [check_bind_eq_ok_iff, pure_eq_ok_iff] at h
  obtain ⟨hdefault, rfl⟩ := h
  exact Fits.argument (suits_of_expectInitial hdefault)

theorem fits_of_assignment {name : String} {value : NodeId}
    (h : tree.payload? (.assignment name value) = .ok payload) : tree.Fits payload := by
  unfold payload? at h
  simp only [bind_eq_ok_iff, pure_eq_ok_iff, expressionType_eq_ok_iff] at h
  obtain ⟨type, htype, rfl⟩ := h
  exact Fits.assignment ⟨type, htype⟩

theorem fits_of_cast {operand : NodeId} {target : DataType}
    (h : tree.payload? (.cast operand target) = .ok payload) : tree.Fits payload := by
  unfold payload? at h
  simp only [bind_eq_ok_iff, pure_eq_ok_iff, expressionType_eq_ok_iff] at h
  obtain ⟨type, htype, rfl⟩ := h
  exact Fits.cast ⟨type, htype⟩

/-- The operator that a token names has a rule for the type of the operand. -/
theorem fits_of_unary {token : String} {operand : NodeId}
    (h : tree.payload? (.unary token operand) = .ok payload) : tree.Fits payload := by
  unfold payload? at h
  dsimp only at h
  split at h
  · cases h
  simp only [bind_eq_ok_iff, pure_eq_ok_iff, expressionType_eq_ok_iff, typed_eq_ok_iff,
    UnaryOperator.resultType_eq_ok_iff] at h
  obtain ⟨type, htype, result, hresult, rfl⟩ := h
  exact Fits.unary htype hresult

/-- The operator that a token names has a rule for the types of the operands. -/
theorem fits_of_binary {token : String} {lhs rhs : NodeId}
    (h : tree.payload? (.binary token lhs rhs) = .ok payload) : tree.Fits payload := by
  unfold payload? at h
  dsimp only at h
  split at h
  · cases h
  simp only [bind_eq_ok_iff, pure_eq_ok_iff, expressionType_eq_ok_iff, typed_eq_ok_iff,
    BinaryOperator.resultType_eq_ok_iff] at h
  obtain ⟨left, hleft, right, hright, result, hresult, rfl⟩ := h
  exact Fits.binary hleft hright hresult

theorem fits_of_block {name : String} {nodes : List NodeId}
    (h : tree.payload? (.block name nodes) = .ok payload) : tree.Fits payload := by
  unfold payload? at h
  simp only [check_bind_eq_ok_iff, pure_eq_ok_iff, forM_eq_ok_iff,
    expectStatement_eq_ok_iff] at h
  obtain ⟨hnodes, rfl⟩ := h
  exact Fits.block hnodes

theorem fits_of_module {name : String} {nodes : List NodeId}
    (h : tree.payload? (.module name nodes) = .ok payload) : tree.Fits payload := by
  unfold payload? at h
  simp only [check_bind_eq_ok_iff, pure_eq_ok_iff, forM_eq_ok_iff,
    expectStatement_eq_ok_iff] at h
  obtain ⟨hnodes, rfl⟩ := h
  exact Fits.module hnodes

theorem fits_of_prototype {signature : Signature} {arguments : List NodeId}
    (h : tree.payload? (.prototype signature arguments) = .ok payload) : tree.Fits payload := by
  unfold payload? at h
  simp only [check_bind_eq_ok_iff, pure_eq_ok_iff, forM_eq_ok_iff,
    expectKind_eq_ok_iff] at h
  obtain ⟨harguments, rfl⟩ := h
  exact Fits.prototype harguments

theorem fits_of_function {head body : NodeId}
    (h : tree.payload? (.function head body) = .ok payload) : tree.Fits payload := by
  unfold payload? at h
  simp only [check_bind_eq_ok_iff, pure_eq_ok_iff, expectKind_eq_ok_iff] at h
  obtain ⟨hhead, hbody, rfl⟩ := h
  exact Fits.function hhead hbody

/-- As many arguments as there are parameters at most, so that each was checked. -/
theorem fits_of_call {callee : NodeId} {arguments : List NodeId}
    (h : tree.payload? (.call callee arguments) = .ok payload) : tree.Fits payload := by
  unfold payload? at h
  simp only [callPayload, bind_eq_ok_iff] at h
  obtain ⟨⟨signature, declared⟩, -, parameters, -, h⟩ := h
  split at h
  · cases h
  next harity =>
  simp only [check_bind_eq_ok_iff, pure_eq_ok_iff] at h
  obtain ⟨harguments, rfl⟩ := h
  exact Fits.call (isExpression_of_expectArguments harguments (by omega))

theorem fits_of_callNamed {callee : String} {arguments : List NodeId} {type : DataType}
    (h : tree.payload? (.callNamed callee arguments type) = .ok payload) : tree.Fits payload := by
  unfold payload? at h
  simp only [bind_eq_ok_iff, pure_eq_ok_iff, expressionTypes_eq_ok_iff] at h
  obtain ⟨types, htypes, rfl⟩ := h
  exact Fits.call (isExpression_of_types htypes)

theorem fits_of_returning {value : Option NodeId}
    (h : tree.payload? (.returning value) = .ok payload) : tree.Fits payload := by
  unfold payload? at h
  simp only [check_bind_eq_ok_iff, bind_eq_ok_iff (A := DataType), pure_eq_ok_iff,
    forM_eq_ok_iff, expressionType_eq_ok_iff, and_true] at h
  obtain ⟨hvalue, rfl⟩ := h
  exact Fits.returning fun v hv => hvalue v (Option.mem_toList.mpr hv)

theorem fits_of_conditional {condition consequent : NodeId} {alternative : Option NodeId}
    (h : tree.payload? (.conditional condition consequent alternative) = .ok payload) :
    tree.Fits payload := by
  unfold payload? at h
  simp only [check_bind_eq_ok_iff, pure_eq_ok_iff, forM_eq_ok_iff,
    expectCondition_eq_ok_iff, expectKind_eq_ok_iff] at h
  obtain ⟨hcondition, hconsequent, halternative, rfl⟩ := h
  apply Fits.conditional hcondition hconsequent
  exact fun b hb => halternative b (Option.mem_toList.mpr hb)

theorem fits_of_whileLoop {condition body : NodeId}
    (h : tree.payload? (.whileLoop condition body) = .ok payload) : tree.Fits payload := by
  unfold payload? at h
  simp only [check_bind_eq_ok_iff, pure_eq_ok_iff, expectCondition_eq_ok_iff,
    expectKind_eq_ok_iff] at h
  obtain ⟨hcondition, hbody, rfl⟩ := h
  exact Fits.whileLoop hcondition hbody

theorem fits_of_forLoop {target iterable body : NodeId} {conditions : List NodeId}
    (h : tree.payload? (.forLoop target iterable conditions body) = .ok payload) :
    tree.Fits payload := by
  unfold payload? at h
  simp only [check_bind_eq_ok_iff, pure_eq_ok_iff, expectKind_eq_ok_iff] at h
  obtain ⟨hiteration, hbody, rfl⟩ := h
  exact Fits.forLoop (isIteration_of_expectIteration hiteration) hbody

theorem fits_of_clause {target iterable : NodeId} {conditions : List NodeId} {isAsync : Bool}
    (h : tree.payload? (.clause target iterable conditions isAsync) = .ok payload) :
    tree.Fits payload := by
  unfold payload? at h
  simp only [check_bind_eq_ok_iff, pure_eq_ok_iff] at h
  obtain ⟨hiteration, rfl⟩ := h
  exact Fits.clause (isIteration_of_expectIteration hiteration)

/-- Every bound of a counted loop was checked against the declared type of the counter. -/
theorem fits_of_rangeLoop {counter start stop body : NodeId} {step : Option NodeId}
    (h : tree.payload? (.rangeLoop counter start stop step body) = .ok payload) :
    tree.Fits payload := by
  unfold payload? at h
  simp only [rangePayload, bind_eq_ok_iff, look_eq_ok_iff] at h
  obtain ⟨found, hcounter, h⟩ := h
  split at h
  · split at h
    · cases h
    next declared hinteger =>
    simp only [bind_eq_ok_iff (A := DataType), bind_eq_ok_iff (A := List DataType),
      check_bind_eq_ok_iff, expectInteger_eq_ok_iff, mapM_eq_ok_iff, forM_eq_ok_iff,
      expectAccepted_eq_ok_iff, expectKind_eq_ok_iff, pure_eq_ok_iff, List.forall_mem_cons] at h
    obtain ⟨first, hfirst, last, hlast, steps, hsteps, ⟨hfirst', hlast', hsteps'⟩, hbody, rfl⟩ := h
    have hbounds : ∀ bound ∈ step.toList, tree.IsBound declared.type bound := by
      intro bound hbound
      obtain ⟨i, hi, rfl⟩ := List.mem_iff_getElem.mp hbound
      have hi' : i < steps.length := hsteps.length_eq ▸ hi
      obtain ⟨htype, hint⟩ := hsteps.get hi hi'
      exact ⟨steps[i], htype, hint, hsteps' _ (List.getElem_mem hi')⟩
    apply Fits.rangeLoop hcounter _ _ hbody
    · simpa [DataType.isAny_iff, or_iff_not_imp_left] using hinteger
    · exact List.forall_mem_cons.mpr ⟨⟨first, hfirst.1, hfirst.2, hfirst'⟩,
        List.forall_mem_cons.mpr ⟨⟨last, hlast.1, hlast.2, hlast'⟩, hbounds⟩⟩
  · cases h

theorem fits_of_comprehension {kind : ComprehensionKind} {element : NodeId}
    {generators : List NodeId}
    (h : tree.payload? (.comprehension kind element generators) = .ok payload) :
    tree.Fits payload := by
  unfold payload? at h
  dsimp only at h
  split at h
  · cases h
  next hnonempty =>
  simp only [check_bind_eq_ok_iff, bind_eq_ok_iff (A := DataType), pure_eq_ok_iff,
    forM_eq_ok_iff, expectKind_eq_ok_iff, expressionType_eq_ok_iff] at h
  obtain ⟨hgenerators, type, htype, rfl⟩ := h
  exact Fits.comprehension (by simpa using hnonempty) hgenerators htype

theorem fits_of_classDecl {header : ClassHeader} {bases decorators : List NodeId}
    (h : tree.payload? (.classDecl header bases decorators) = .ok payload) :
    tree.Fits payload := by
  unfold payload? at h
  simp only [bind_eq_ok_iff, pure_eq_ok_iff, expressionTypes_eq_ok_iff] at h
  obtain ⟨types, htypes, rfl⟩ := h
  exact Fits.classDecl (isExpression_of_types htypes)

theorem fits_of_classDef {header : ClassHeader} {bases decorators attributes methods : List NodeId}
    (h : tree.payload? (.classDef header bases decorators attributes methods) = .ok payload) :
    tree.Fits payload := by
  unfold payload? at h
  simp only [bind_eq_ok_iff (A := List DataType), check_bind_eq_ok_iff,
    pure_eq_ok_iff, forM_eq_ok_iff, expressionTypes_eq_ok_iff, expectKind_eq_ok_iff] at h
  obtain ⟨types, htypes, hattributes, hmethods, rfl⟩ := h
  exact Fits.classDef (isExpression_of_types htypes) hattributes hmethods

/-- The payload of a checked draft obeys the rules. -/
theorem fits_of_payload? {draft : Draft} (h : tree.payload? draft = .ok payload) :
    tree.Fits payload := by
  cases draft with
  | plain | «variable» | breaking | continuing =>
      obtain rfl := Except.ok.inj h
      constructor
  | literal => exact fits_of_literal h
  | collection => exact fits_of_collection h
  | mapping => exact fits_of_mapping h
  | declaration => exact fits_of_declaration h
  | assignment => exact fits_of_assignment h
  | unary => exact fits_of_unary h
  | binary => exact fits_of_binary h
  | cast => exact fits_of_cast h
  | block => exact fits_of_block h
  | module => exact fits_of_module h
  | argument => exact fits_of_argument h
  | prototype => exact fits_of_prototype h
  | function => exact fits_of_function h
  | call => exact fits_of_call h
  | callNamed => exact fits_of_callNamed h
  | returning => exact fits_of_returning h
  | conditional => exact fits_of_conditional h
  | whileLoop => exact fits_of_whileLoop h
  | forLoop => exact fits_of_forLoop h
  | rangeLoop => exact fits_of_rangeLoop h
  | clause => exact fits_of_clause h
  | comprehension => exact fits_of_comprehension h
  | classDecl => exact fits_of_classDecl h
  | classDef => exact fits_of_classDef h

end Drafts

/-! ## Changes keep the rules -/

/-- An expression is no block or module. -/
theorem kind_notMem_of_valueType? {p : Payload NodeId} {type : DataType}
    (h : p.valueType? = some type) : p.kind ∉ [Kind.block, .module] := by
  cases p <;> simp [Payload.valueType?] at h <;> simp [Payload.kind]

/-- What a change keeps: the kinds of nodes, and all payloads but those of
blocks and modules. -/
structure Keeps (tree tree' : Tree) : Prop where
  kind : ∀ {id k}, tree.HasKind k id → tree'.HasKind k id
  payload : ∀ {id p}, tree.payload id = .ok p → p.kind ∉ [Kind.block, .module] →
    tree'.payload id = .ok p

section Keeps

variable (hk : Keeps tree tree')
include hk

/-- An expression keeps its type. -/
theorem Keeps.hasType {type : DataType} (h : tree.HasType id type) : tree'.HasType id type := by
  obtain ⟨node, hnode, htype⟩ := map_eq_ok_iff.mp h
  obtain ⟨node', hnode', hpayload⟩ := map_eq_ok_iff.mp
    (hk.payload (map_eq_ok_iff.mpr ⟨node, hnode, rfl⟩) (kind_notMem_of_valueType? htype))
  exact map_eq_ok_iff.mpr ⟨node', hnode', hpayload ▸ htype⟩

theorem Keeps.isExpression (h : tree.IsExpression id) : tree'.IsExpression id :=
  h.imp fun _ => hk.hasType

theorem Keeps.isCondition (h : tree.IsCondition id) : tree'.IsCondition id :=
  h.imp fun _ => And.imp_left hk.hasType

theorem Keeps.suits {declared : DataType} (h : tree.Suits declared id) :
    tree'.Suits declared id :=
  h.imp fun _ => And.imp_left hk.hasType

theorem Keeps.isBound {declared : DataType} (h : tree.IsBound declared id) :
    tree'.IsBound declared id :=
  h.imp fun _ => And.imp_left hk.hasType

/-- A target of a loop stays one. -/
theorem Keeps.isTarget {element : DataType} (h : tree.IsTarget element id) :
    tree'.IsTarget element id := by
  cases h with
  | «variable» hp ha => exact IsTarget.variable (hk.payload hp (by simp [Payload.kind])) ha
  | declaration hp ha => exact IsTarget.declaration (hk.payload hp (by simp [Payload.kind])) ha

theorem Keeps.isStatement (h : tree.IsStatement id) : tree'.IsStatement id :=
  h.imp fun _ => And.imp_left hk.kind

/-- The header of a loop keeps its typing. -/
theorem Keeps.isIteration {target iterable : NodeId} {conditions : List NodeId}
    (h : tree.IsIteration target iterable conditions) :
    tree'.IsIteration target iterable conditions where
  elements := by
    obtain ⟨type, element, htype, helement, htarget⟩ := h.elements
    exact ⟨type, element, hk.hasType htype, helement, hk.isTarget htarget⟩
  conditions := fun c hc => hk.isCondition (h.conditions c hc)

/-- A payload that obeys the rules obeys them after the change too. -/
theorem Keeps.fits {payload : Payload NodeId} (h : tree.Fits payload) : tree'.Fits payload := by
  cases h with
  | literal => exact Fits.literal
  | collection helements htype =>
      exact Fits.collection (helements.imp fun _ _ => hk.hasType) htype
  | mapping hkeys hvalues htype =>
      exact Fits.mapping (hkeys.imp fun _ _ => hk.hasType) (hvalues.imp fun _ _ => hk.hasType)
        htype
  | «variable» => exact Fits.variable
  | declaration h => exact Fits.declaration fun v hv => hk.suits (h v hv)
  | assignment h => exact Fits.assignment (hk.isExpression h)
  | unary h hresult => exact Fits.unary (hk.hasType h) hresult
  | binary hl hr hresult => exact Fits.binary (hk.hasType hl) (hk.hasType hr) hresult
  | cast h => exact Fits.cast (hk.isExpression h)
  | block h => exact Fits.block fun n hn => hk.isStatement (h n hn)
  | module h => exact Fits.module fun n hn => hk.isStatement (h n hn)
  | argument h => exact Fits.argument fun v hv => hk.suits (h v hv)
  | prototype h => exact Fits.prototype fun a ha => hk.kind (h a ha)
  | function hhead hbody => exact Fits.function (hk.kind hhead) (hk.kind hbody)
  | call h => exact Fits.call fun a ha => hk.isExpression (h a ha)
  | returning h => exact Fits.returning fun v hv => hk.isExpression (h v hv)
  | conditional hc hthen helse =>
      exact Fits.conditional (hk.isCondition hc) (hk.kind hthen) fun b hb => hk.kind (helse b hb)
  | whileLoop hc hbody => exact Fits.whileLoop (hk.isCondition hc) (hk.kind hbody)
  | forLoop h hbody => exact Fits.forLoop (hk.isIteration h) (hk.kind hbody)
  | rangeLoop hcounter hinteger hbounds hbody =>
      exact Fits.rangeLoop (hk.payload hcounter (by simp [Payload.kind])) hinteger
        (fun bound hbound => hk.isBound (hbounds bound hbound)) (hk.kind hbody)
  | breaking => exact Fits.breaking
  | continuing => exact Fits.continuing
  | clause h => exact Fits.clause (hk.isIteration h)
  | comprehension hne hgenerators htype =>
      exact Fits.comprehension hne (fun g hg => hk.kind (hgenerators g hg)) (hk.hasType htype)
  | classDecl h => exact Fits.classDecl fun e he => hk.isExpression (h e he)
  | classDef h hattributes hmethods =>
      exact Fits.classDef (fun e he => hk.isExpression (h e he))
        (fun a ha => hk.kind (hattributes a ha)) (fun m hm => hk.kind (hmethods m hm))

end Keeps

theorem payload_eq_ok_iff {p : Payload NodeId} :
    tree.payload id = .ok p ↔ ∃ n, tree.node id = .ok n ∧ n.payload = p :=
  map_eq_ok_iff

theorem hasType_of_payload {p : Payload NodeId} {type : DataType} (h : tree.payload id = .ok p)
    (htype : p.valueType? = some type) : tree.HasType id type := by
  obtain ⟨node, hnode, rfl⟩ := payload_eq_ok_iff.mp h
  exact map_eq_ok_iff.mpr ⟨node, hnode, htype⟩

/-- A node has one type. -/
theorem HasType.unique {type type' : DataType} (h : tree.HasType id type)
    (h' : tree.HasType id type') : type = type' :=
  Option.some.inj (Except.ok.inj (h.symm.trans h'))

theorem keeps_of_payload_eq
    (h : ∀ {id p}, tree.payload id = .ok p → tree'.payload id = .ok p) : Keeps tree tree' where
  kind := by
    intro id k hkind
    obtain ⟨n, hn, rfl⟩ := map_eq_ok_iff.mp hkind
    obtain ⟨n', hn', hp⟩ := payload_eq_ok_iff.mp (h (payload_eq_ok_iff.mpr ⟨n, hn, rfl⟩))
    exact map_eq_ok_iff.mpr ⟨n', hn', congrArg Payload.kind hp⟩
  payload := fun hp _ => h hp

theorem Grown.payload_eq {node : Node} (h : tree.Grown tree' node) (hid : id ≠ tree.nextId) :
    tree'.payload id = tree.payload id := by
  simp only [payload, h.kept id hid]
  cases tree.node id with
  | error e => rfl
  | ok n => by_cases hc : id ∈ node.payload.children <;> simp [Except.map, hc]

/-- A new node keeps what is known of the others. -/
theorem Grown.keeps {node : Node} (h : tree.Grown tree' node) : Keeps tree tree' := by
  apply keeps_of_payload_eq
  intro id p hp
  obtain ⟨n, hn, -⟩ := payload_eq_ok_iff.mp hp
  rw [h.payload_eq (has_of_node hn).ne_nextId, hp]

theorem Commented.payload_eq {node : NodeId} {comment : String}
    (h : tree.Commented tree' node comment) : tree'.payload id = tree.payload id := by
  simp only [payload, h.node_eq id]
  cases tree.node id with
  | error e => rfl
  | ok n => by_cases hc : id = node <;> simp [Except.map, hc]

theorem Lengthened.payload_eq {block child : NodeId} (h : tree.Lengthened tree' block child) :
    tree'.payload id =
      if id = block then (tree.payload id).map (·.addStatement child) else tree.payload id := by
  simp only [payload, h.node_eq id]
  cases tree.node id with
  | error e => by_cases hb : id = block <;> simp [Except.map, hb]
  | ok n =>
      by_cases hb : id = block
      · simp [Except.map, hb]
      · simp only [Except.map, hb, if_false]
        split <;> rfl

/-- Only blocks and modules get further statements. -/
theorem Lengthened.block_kind {block child : NodeId} (h : tree.Lengthened tree' block child)
    {p : Payload NodeId} (hp : tree.payload block = .ok p) : p.kind ∈ [Kind.block, .module] := by
  obtain ⟨n, hn, rfl⟩ := payload_eq_ok_iff.mp hp
  have hkind : tree.kind block = .ok n.payload.kind := map_eq_ok_iff.mpr ⟨n, hn, rfl⟩
  rcases h.appendable.container with hk | hk <;>
    simp [Except.ok.inj (hkind.symm.trans hk)]

theorem kind_addStatement {α : Type} (p : Payload α) (child : α) :
    (p.addStatement child).kind = p.kind := by
  cases p <;> rfl

/-- A further statement changes the payload of its block only. -/
theorem Lengthened.keeps {block child : NodeId} (h : tree.Lengthened tree' block child) :
    Keeps tree tree' where
  kind := by
    intro id k hkind
    obtain ⟨n, hn, rfl⟩ := map_eq_ok_iff.mp hkind
    have hp := payload_eq_ok_iff.mpr ⟨n, hn, rfl⟩
    have hp' : ∃ p', tree'.payload id = .ok p' ∧ p'.kind = n.kind := by
      rw [h.payload_eq, hp]
      by_cases hb : id = block
      · exact ⟨_, if_pos hb, kind_addStatement _ _⟩
      · exact ⟨_, if_neg hb, rfl⟩
    obtain ⟨p', hp', hkind'⟩ := hp'
    obtain ⟨n', hn', rfl⟩ := payload_eq_ok_iff.mp hp'
    exact map_eq_ok_iff.mpr ⟨n', hn', hkind'⟩
  payload := by
    intro id p hp hkind
    rw [h.payload_eq, if_neg, hp]
    rintro rfl
    exact hkind (h.block_kind hp)

/-- A block with one more statement obeys the same rules. -/
theorem Fits.addStatement {payload : Payload NodeId} {child : NodeId} (h : tree.Fits payload)
    (hchild : tree.IsStatement child) : tree.Fits (payload.addStatement child) := by
  have hall : ∀ {nodes : List NodeId}, (∀ n ∈ nodes, tree.IsStatement n) →
      ∀ n ∈ nodes ++ [child], tree.IsStatement n := by
    intro nodes hnodes n hn
    rcases List.mem_append.mp hn with hn | hn
    · exact hnodes n hn
    · exact List.mem_singleton.mp hn ▸ hchild
  cases h with
  | block hnodes => exact Fits.block (hall hnodes)
  | module hnodes => exact Fits.module (hall hnodes)
  | _ => constructor <;> assumption

/-! ## Every run -/

theorem wellFormed_empty (i : Nat) : WellFormed (empty i) := by
  intro id payload hp
  obtain ⟨n, hn, -⟩ := payload_eq_ok_iff.mp hp
  exact (Nat.not_lt_zero _ (has_of_node hn).2).elim

theorem WellFormed.quiet (ht : WellFormed tree) (hid : tree'.id = tree.id)
    (hnodes : tree'.nodes = tree.nodes) : WellFormed tree' := by
  obtain ⟨i, nodes, pending⟩ := tree
  obtain ⟨i', nodes', pending'⟩ := tree'
  subst hid hnodes
  have hk : Keeps ⟨i', nodes', pending⟩ ⟨i', nodes', pending'⟩ := keeps_of_payload_eq fun hp => hp
  exact fun id p hp => hk.fits (ht id p hp)

/-- A new node that obeys the rules leaves the tree well-formed. -/
theorem WellFormed.grown {node : Node} (ht : WellFormed tree) (h : tree.Grown tree' node)
    (hnode : tree.Fits node.payload) : WellFormed tree' := by
  intro id p hp
  by_cases hid : id = tree.nextId
  · subst hid
    have hadded : tree'.payload tree.nextId = .ok node.payload :=
      payload_eq_ok_iff.mpr ⟨node, h.added, rfl⟩
    rw [← Except.ok.inj (hadded.symm.trans hp)]
    exact h.keeps.fits hnode
  · rw [h.payload_eq hid] at hp
    exact h.keeps.fits (ht id p hp)

/-- No rule is about comments. -/
theorem WellFormed.commented {node : NodeId} {comment : String} (ht : WellFormed tree)
    (h : tree.Commented tree' node comment) : WellFormed tree' := by
  intro id p hp
  rw [h.payload_eq] at hp
  exact (keeps_of_payload_eq fun hp => h.payload_eq.trans hp).fits (ht id p hp)

/-- A further statement leaves the tree well-formed. -/
theorem WellFormed.lengthened {block child : NodeId} (ht : WellFormed tree)
    (h : tree.Lengthened tree' block child) : WellFormed tree' := by
  obtain ⟨kind, hkind, hstatement⟩ := h.appendable.statement
  have hchild : tree.IsStatement child := ⟨kind, hkind, isStatement_eq_true_iff.mp hstatement⟩
  intro id p hp
  rw [h.payload_eq] at hp
  by_cases hb : id = block
  · rw [if_pos hb] at hp
    obtain ⟨old, hold, rfl⟩ := map_eq_ok_iff.mp hp
    exact h.keeps.fits ((ht id old hold).addStatement hchild)
  · rw [if_neg hb] at hp
    exact h.keeps.fits (ht id p hp)

/-- Every node of every tree obeys the rules of its kind after every run. -/
theorem wellFormed_run (actions : List Workspace.Action) (i : Nat) :
    WellFormed ((Workspace.run actions).tree i) :=
  Workspace.forall_tree_run (P := WellFormed) wellFormed_empty
    (fun hid hnodes ht => ht.quiet hid hnodes)
    (fun hpayload hgrown ht => ht.grown hgrown (fits_of_payload? hpayload))
    (fun hlong ht => ht.lengthened hlong)
    (fun hcomment ht => ht.commented hcomment) actions i

end TypedSyntax.Tree
