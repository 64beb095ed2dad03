import Mathlib.Algebra.BigOperators.Group.List.Basic
import Mathlib.Algebra.Ring.Nat
import TypedSyntax.Python.Writer

/-!
# Two texts of one payload

Nodes with the same payload write their texts by the same rule. A comparison says how
far two texts may be apart, by an amount that adds up along them, and each rule keeps
it: the texts of two nodes are as far apart as those of their children. The comparison
is equality where the texts are to be the same.
-/

namespace TypedSyntax

namespace Payload

variable {α β : Type}

/-- The target of a loop or clause. -/
def target? : Payload α → Option α
  | .forLoop target .. | .rangeLoop target .. | .clause target .. => some target
  | _ => none

/-- The operands of an operation, and several conditions of a loop. -/
def operands : Payload α → List α
  | .unary _ operand _ => [operand]
  | .binary _ lhs rhs _ => [lhs, rhs]
  | .forLoop _ _ conditions _ => if 1 < conditions.length then conditions else []
  | _ => []

/-- The alternative of a conditional. -/
def alternative? : Payload α → Option α
  | .conditional _ _ alternative => alternative
  | _ => none

/-- The children except for the target of a loop or clause. -/
def printed : Payload α → List α
  | .forLoop _ iterable conditions body => iterable :: (conditions ++ [body])
  | .rangeLoop _ start stop step body => start :: stop :: (step.toList ++ [body])
  | .clause _ iterable conditions _ => iterable :: conditions
  | other => other.children

/-- The children are the target, if there is one, and then all others. -/
theorem children_eq (p : Payload α) : p.children = p.target?.toList ++ p.printed := by
  cases p <;> rfl

theorem mem_of_mem_target? {p : Payload α} {c : α} (h : c ∈ p.target?) : c ∈ p.children := by
  rw [children_eq]
  exact List.mem_append_left _ (Option.mem_toList.mpr h)

theorem mem_of_mem_printed {p : Payload α} {c : α} (h : c ∈ p.printed) : c ∈ p.children := by
  rw [children_eq]
  exact List.mem_append_right _ h

theorem mem_of_mem_operands {p : Payload α} {c : α} (h : c ∈ p.operands) : c ∈ p.children := by
  cases p with
  | unary | binary => exact h
  | forLoop _ _ conditions =>
      rw [operands] at h
      split at h
      · simp [children, h]
      · cases h
  | _ => cases h

theorem target?_map (f : α → β) (p : Payload α) : (p.map f).target? = p.target?.map f := by
  cases p <;> rfl

theorem printed_map (f : α → β) (p : Payload α) : (p.map f).printed = p.printed.map f := by
  have hchildren := children_map f p
  rw [children_eq, target?_map, children_eq, List.map_append, Option.toList_map] at hchildren
  exact List.append_cancel_left hchildren

@[simp] theorem operands_map (f : α → β) (p : Payload α) :
    (p.map f).operands = p.operands.map f := by
  cases p with
  | forLoop _ _ conditions =>
      simp only [map, operands, List.length_map]
      split <;> rfl
  | _ => rfl

end Payload

namespace Python

/-! ## Coupled computations -/

section Coupled

variable {A A' B B' : Type} {S : Imports → Imports → Prop} {R : A → A' → Prop}
  {R' : B → B' → Prop} {m : Writing A} {m' : Writing A'}

/-- From related imports two computations have related results, and leave related
imports. -/
def Coupled (S : Imports → Imports → Prop) (R : A → A' → Prop) (m : Writing A)
    (m' : Writing A') : Prop :=
  ∀ i i', S i i' → R (m.run i).1 (m'.run i').1 ∧ S (m.run i).2 (m'.run i').2

theorem coupled_pure {a : A} {a' : A'} (h : R a a') : Coupled S R (pure a) (pure a') :=
  fun _ _ hs => ⟨h, hs⟩

/-- Coupled computations may be followed by coupled computations. -/
theorem Coupled.bind {f : A → Writing B} {f' : A' → Writing B'} (hm : Coupled S R m m')
    (hf : ∀ a a', R a a' → Coupled S R' (f a) (f' a')) : Coupled S R' (m >>= f) (m' >>= f') := by
  intro i i' hs
  obtain ⟨hresult, hstate⟩ := hm i i' hs
  exact hf _ _ hresult _ _ hstate

theorem Coupled.imp {R'' : A → A' → Prop} (h : Coupled S R m m')
    (himp : ∀ a a', R a a' → R'' a a') : Coupled S R'' m m' := by
  intro i i' hs
  obtain ⟨hresult, hstate⟩ := h i i' hs
  exact ⟨himp _ _ hresult, hstate⟩

/-- From the same imports a computation is coupled to itself. -/
theorem coupled_self (m : Writing A) : Coupled (· = ·) (· = ·) m m := by
  rintro i _ rfl
  exact ⟨rfl, rfl⟩

/-- Coupled by equality from equal imports, two computations are the same. -/
theorem coupled_eq_iff {m m' : Writing A} : Coupled (· = ·) (· = ·) m m' ↔ m = m' := by
  constructor
  · intro h
    funext i
    obtain ⟨hresult, hstate⟩ := h i i rfl
    exact Prod.ext hresult hstate
  · rintro rfl
    exact coupled_self m

end Coupled

/-! ## Comparisons of texts -/

/-- As many texts, one by one at the distances that add up to the amount. -/
inductive Compared (G : Nat → String → String → Prop) : Nat → List String → List String → Prop
  | nil : Compared G 0 [] []
  | cons {j k s t ss ts} : G j s t → Compared G k ss ts → Compared G (j + k) (s :: ss) (t :: ts)

/-- Distances between texts that add up where texts are put together and stay under
indentation, in computations whose notes are alike. -/
structure Comparison (S : Imports → Imports → Prop) (G : Nat → String → String → Prop) :
    Prop where
  refl : ∀ s, G 0 s s
  append : ∀ {j k s s' t t'}, G j s t → G k s' t' → G (j + k) (s ++ s') (t ++ t')
  indent : ∀ {k s t} (options : PythonOptions), G k s t →
    G k (indentLines options s) (indentLines options t)
  note : ∀ m : Writing Unit, Coupled S (· = ·) m m

section Compared

variable {G : Nat → String → String → Prop} {j k : Nat} {ss ss' ts ts' : List String}

/-- Distances add up where the lists are put together. -/
theorem Compared.append (h : Compared G j ss ts) (h' : Compared G k ss' ts') :
    Compared G (j + k) (ss ++ ss') (ts ++ ts') := by
  induction h with
  | nil => rwa [Nat.zero_add]
  | cons hs _ ih =>
      rw [Nat.add_assoc]
      exact ih.cons hs

/-- Both of two optional texts are there, or neither is. -/
theorem Compared.option_cases {s? t? : Option String} (h : Compared G k s?.toList t?.toList) :
    (s? = none ∧ t? = none ∧ k = 0) ∨ ∃ s t, s? = some s ∧ t? = some t ∧ G k s t := by
  cases s? with
  | none =>
      cases t? with
      | none =>
          cases h
          exact Or.inl ⟨rfl, rfl, rfl⟩
      | some t => cases h
  | some s =>
      cases t? with
      | none => cases h
      | some t =>
          rcases h with - | ⟨hs, ⟨⟩⟩
          exact Or.inr ⟨s, t, rfl, rfl, hs⟩

end Compared

section Comparison

variable {S : Imports → Imports → Prop} {G : Nat → String → String → Prop} {j k : Nat}
  {s t : String} {ss ss' ts ts' : List String}

variable (hG : Comparison S G)
include hG

theorem Comparison.after (h : G k s t) (head : String) : G k (head ++ s) (head ++ t) := by
  have happend := hG.append (hG.refl head) h
  rwa [Nat.zero_add] at happend

theorem Comparison.before (h : G k s t) (last : String) : G k (s ++ last) (t ++ last) :=
  hG.append h (hG.refl last)

theorem Comparison.enclose (h : G k s t) (opening closing : String) :
    G k (opening ++ s ++ closing) (opening ++ t ++ closing) :=
  hG.before (hG.after h opening) closing

theorem Comparison.all_refl (ss : List String) : Compared G 0 ss ss := by
  induction ss with
  | nil => exact Compared.nil
  | cons s ss ih => exact ih.cons (hG.refl s)

/-- Texts stay as far apart with a separator between them. -/
theorem Comparison.intercalate (separator : String) (h : Compared G k ss ts) :
    G k (separator.intercalate ss) (separator.intercalate ts) := by
  induction h with
  | nil => exact hG.refl _
  | cons hs hss ih =>
      cases hss with
      | nil =>
          rw [String.intercalate_singleton, String.intercalate_singleton]
          exact hs
      | cons =>
          rw [String.intercalate_cons_cons, String.intercalate_cons_cons]
          exact hG.append (hG.before hs separator) ih

/-- Texts stay as far apart on lines of their own. -/
theorem Comparison.joinLines (h : Compared G k ss ts) :
    G k (Python.joinLines ss) (Python.joinLines ts) :=
  hG.intercalate "\n" h

theorem Comparison.commaList (h : Compared G k ss ts) : G k (commaList ss) (commaList ts) :=
  hG.intercalate ", " h

/-- Joined after the same addition to each. -/
theorem Comparison.joined (h : Compared G k ss ts) {add : String → String}
    (hadd : ∀ {k s t}, G k s t → G k (add s) (add t)) :
    G k (String.join (ss.map add)) (String.join (ts.map add)) := by
  induction h with
  | nil => exact hG.refl _
  | cons hs _ ih =>
      rw [List.map_cons, List.map_cons, String.join_cons, String.join_cons]
      exact hG.append (hadd hs) ih

/-- The bases of a class. -/
theorem Comparison.inherited (h : Compared G k ss ts) :
    G k (if ss.isEmpty then "" else "(" ++ Python.commaList ss ++ ")")
      (if ts.isEmpty then "" else "(" ++ Python.commaList ts ++ ")") := by
  cases h with
  | nil => exact hG.refl ""
  | cons hs hss => exact hG.enclose (hG.commaList (hss.cons hs)) "(" ")"

theorem Comparison.collection (kind : CollectionKind) (h : Compared G k ss ts) :
    G k (collection kind ss) (collection kind ts) := by
  cases kind with
  | list => exact hG.enclose (hG.commaList h) "[" "]"
  | set =>
      cases h with
      | nil => exact hG.refl "set()"
      | cons hs hss => exact hG.enclose (hG.commaList (hss.cons hs)) "\x7b" "\x7d"
  | tuple =>
      rcases h with - | ⟨hs, - | ⟨hs', hss⟩⟩
      · exact hG.refl "()"
      · exact hG.enclose hs "(" ",)"
      · exact hG.enclose (hG.commaList ((hss.cons hs').cons hs)) "(" ")"

theorem Comparison.declaration (name : String) (hint? : Option String) {s? t? : Option String}
    (h : Compared G k s?.toList t?.toList) :
    G k (declaration name hint? s?) (declaration name hint? t?) := by
  rcases h.option_cases with ⟨rfl, rfl, rfl⟩ | ⟨s, t, rfl, rfl, hvalue⟩
  · exact hG.refl _
  · cases hint? with
    | none => exact hG.after hvalue (name ++ " = ")
    | some hint => exact hG.after hvalue (name ++ ": " ++ hint ++ " = ")

theorem Comparison.parameter (name : String) (hint? : Option String) {s? t? : Option String}
    (h : Compared G k s?.toList t?.toList) :
    G k (parameter name hint? s?) (parameter name hint? t?) := by
  rcases h.option_cases with ⟨rfl, rfl, rfl⟩ | ⟨s, t, rfl, rfl, hvalue⟩
  · exact hG.refl _
  · cases hint? with
    | none => exact hG.after hvalue (name ++ "=")
    | some hint => exact hG.after hvalue (name ++ ": " ++ hint ++ " = ")

/-- Blank lines stand between the members of both classes alike. -/
theorem Comparison.members (h : Compared G j ss ts) (h' : Compared G k ss' ts') :
    Compared G (j + k) (members ss ss') (members ts ts') := by
  have hblank : ∀ {k ss ts}, Compared G k ss ts →
      Compared G k (ss.flatMap fun s => ["", s]) (ts.flatMap fun s => ["", s]) := by
    intro k ss ts h
    induction h with
    | nil => exact Compared.nil
    | cons hs _ ih =>
        have hline := (ih.cons hs).cons (hG.refl "")
        rwa [Nat.zero_add] at hline
  cases h with
  | nil =>
      rw [Nat.zero_add]
      cases h' with
      | nil => exact hG.all_refl ["pass"]
      | cons hs hss => exact (hblank hss).cons hs
  | cons hs hss => exact (hss.cons hs).append (hblank h')

end Comparison

/-- Equality is a comparison without distances. -/
theorem comparison_eq {S : Imports → Imports → Prop}
    (hnote : ∀ m : Writing Unit, Coupled S (· = ·) m m) : Comparison S fun _ s t => s = t where
  refl _ := rfl
  append hs ht := congrArg₂ (· ++ ·) hs ht
  indent options h := congrArg (indentLines options) h
  note := hnote

/-! ## The rules -/

section Rules

variable {S : Imports → Imports → Prop} {G : Nat → String → String → Prop} {options : PythonOptions}
  {α : Type} {f f' : α → Part} {v w : α → Nat} {cs : List α} {c? : Option α}
  {part value : α} {j k : Nat}

/-- Children of two nodes with one payload whose texts are compared. Besides the texts of
all children a text shows comments of statements, the kinds of operands, the names of
targets, and whether an alternative is another conditional. The distance of operands may
be larger than that of their texts. -/
structure Parallel (S : Imports → Imports → Prop) (G : Nat → String → String → Prop)
    (f f' : α → Part) (v w : α → Nat) (p : Payload α) : Prop where
  text : ∀ c ∈ p.children, Coupled S (G (v c)) (f c).2 (f' c).2
  comment : ∀ c ∈ p.children, (f c).1.comment = (f' c).1.comment
  operand : ∀ c ∈ p.operands, Coupled S (G (v c + w c)) (operand (f c)) (operand (f' c))
  target : ∀ c ∈ p.target?, Coupled S (G (v c)) (target (f c)) (target (f' c))
  isElif : ∀ c ∈ p.alternative?, isElif (f c).1 = isElif (f' c).1

theorem sum_map_entries (v : α → Nat) (entries : List (α × α)) :
    ((entries.flatMap fun (key, value) => [key, value]).map v).sum =
      (entries.map fun entry => v entry.1 + v entry.2).sum := by
  induction entries with
  | nil => rfl
  | cons entry entries ih =>
      rw [List.flatMap_cons, List.map_append, List.sum_append, ih]
      simp

theorem Coupled.of_eq {m m' : Writing String} (h : Coupled S (G j) m m') (hjk : k = j) :
    Coupled S (G k) m m' :=
  hjk ▸ h

/-- Computations that are coupled one by one are coupled when run in turn. -/
theorem coupled_mapM {g g' : α → Writing String} (h : ∀ c ∈ cs, Coupled S (G (v c)) (g c) (g' c)) :
    Coupled S (Compared G (cs.map v).sum) (cs.mapM g) (cs.mapM g') := by
  induction cs with
  | nil => exact coupled_pure Compared.nil
  | cons c cs ih =>
      obtain ⟨hc, hcs⟩ := List.forall_mem_cons.mp h
      rw [List.mapM_cons, List.mapM_cons, List.map_cons, List.sum_cons]
      exact hc.bind fun _ _ htext => (ih hcs).bind fun _ _ htexts =>
        coupled_pure (htexts.cons htext)

theorem coupled_texts (h : ∀ c ∈ cs, Coupled S (G (v c)) (f c).2 (f' c).2) :
    Coupled S (Compared G (cs.map v).sum) (texts (cs.map f)) (texts (cs.map f')) := by
  rw [texts, texts, List.mapM_map, List.mapM_map]
  exact coupled_mapM h

theorem coupled_valueText (h : ∀ c ∈ c?.toList, Coupled S (G (v c)) (f c).2 (f' c).2) :
    Coupled S (fun s? t? => Compared G (c?.toList.map v).sum s?.toList t?.toList)
      (valueText (c?.map f)) (valueText (c?.map f')) := by
  cases c? with
  | none => exact coupled_pure Compared.nil
  | some c =>
      exact (h c List.mem_cons_self).bind fun _ _ htext => coupled_pure (Compared.nil.cons htext)

variable (hG : Comparison S G)
include hG

theorem coupled_annotate (type : DataType) :
    Coupled S (· = ·) (annotate options type) (annotate options type) := by
  unfold annotate
  split
  · exact (hG.note _).bind fun _ _ _ => coupled_pure rfl
  · exact coupled_pure rfl

theorem coupled_literal (value : LiteralValue) (type : DataType) :
    Coupled S (G 0) (literal value type) (literal value type) := by
  cases value with
  | bool b => cases b <;> exact coupled_pure (hG.refl _)
  | temporal s => exact (hG.note needDatetime).bind fun _ _ _ => coupled_pure (hG.refl _)
  | _ => exact coupled_pure (hG.refl _)

/-- Statements are as far apart as their parts if they have the same comment. -/
theorem coupled_statement {part part' : Part} (h : Coupled S (G k) part.2 part'.2)
    (hcomment : part.1.comment = part'.1.comment) :
    Coupled S (G k) (statement part) (statement part') := by
  apply h.bind
  intro s t htext
  rw [hcomment]
  split
  · exact coupled_pure htext
  · exact coupled_pure (hG.after htext _)

/-- Statements with the same comments are as far apart as their parts together. -/
theorem coupled_statements (h : ∀ c ∈ cs, Coupled S (G (v c)) (f c).2 (f' c).2)
    (hcomment : ∀ c ∈ cs, (f c).1.comment = (f' c).1.comment) :
    Coupled S (Compared G (cs.map v).sum) ((cs.map f).mapM statement)
      ((cs.map f').mapM statement) := by
  rw [List.mapM_map, List.mapM_map]
  exact coupled_mapM fun c hc => coupled_statement hG (h c hc) (hcomment c hc)

theorem coupled_body {part part' : Part} (h : Coupled S (G k) part.2 part'.2) :
    Coupled S (G k) (body options part) (body options part') :=
  h.bind fun _ _ htext => coupled_pure (hG.indent options htext)

/-- An operand of the same kind is in brackets on both sides or on neither. -/
theorem coupled_operand {part part' : Part} (h : Coupled S (G k) part.2 part'.2)
    (hkind : part.1.kind = part'.1.kind) : Coupled S (G k) (operand part) (operand part') := by
  apply h.bind
  intro s t htext
  rw [hkind]
  split
  · exact coupled_pure (hG.enclose htext "(" ")")
  · exact coupled_pure (hG.enclose htext "(" ")")
  · exact coupled_pure htext

theorem coupled_target {part : Part} (h : Coupled S (G 0) part.2 part.2) :
    Coupled S (G 0) (target part) (target part) := by
  unfold target
  split
  · exact coupled_pure (hG.refl _)
  · exact coupled_pure (hG.refl _)
  · exact h

theorem coupled_writeCollection {kind : CollectionKind} {elements : List α} {type : DataType}
    (h : Parallel S G f f' v w (.collection kind elements type)) :
    Coupled S (G (elements.map v).sum) (writeCollection kind (elements.map f))
      (writeCollection kind (elements.map f')) :=
  (coupled_texts h.text).bind fun _ _ hall => coupled_pure (hG.collection kind hall)

theorem coupled_writeEntry {entry entry' : Part × Part}
    (hkey : Coupled S (G j) entry.1.2 entry'.1.2)
    (hvalue : Coupled S (G k) entry.2.2 entry'.2.2) :
    Coupled S (G (j + k)) (writeEntry entry) (writeEntry entry') :=
  hkey.bind fun _ _ hs => hvalue.bind fun _ _ hs' =>
    coupled_pure (hG.append (hG.before hs ": ") hs')

theorem coupled_writeMapping {entries : List (α × α)} {type : DataType}
    (h : Parallel S G f f' v w (.mapping entries type)) :
    Coupled S (G ((Payload.mapping entries type).children.map v).sum)
      (writeMapping (entries.map fun e => (f e.1, f e.2)))
      (writeMapping (entries.map fun e => (f' e.1, f' e.2))) := by
  have hentry : ∀ e ∈ entries, Coupled S (G (v e.1 + v e.2)) (writeEntry (f e.1, f e.2))
      (writeEntry (f' e.1, f' e.2)) := by
    intro e he
    have hparts : ∀ c ∈ [e.1, e.2], Coupled S (G (v c)) (f c).2 (f' c).2 :=
      fun c hc => h.text c (List.mem_flatMap.mpr ⟨e, he, hc⟩)
    obtain ⟨hkey, hvalue⟩ := List.forall_mem_cons.mp hparts
    exact coupled_writeEntry hG hkey (hvalue e.2 List.mem_cons_self)
  have hentries := coupled_mapM hentry
  rw [← sum_map_entries] at hentries
  rw [writeMapping, writeMapping, List.mapM_map, List.mapM_map]
  exact hentries.bind fun _ _ hall =>
    coupled_pure (hG.enclose (hG.commaList hall) "\x7b" "\x7d")

theorem coupled_writeDeclaration {declared : Declaration} {value : Option α}
    (h : Parallel S G f f' v w (.declaration declared value)) :
    Coupled S (G (value.toList.map v).sum) (writeDeclaration options declared (value.map f))
      (writeDeclaration options declared (value.map f')) := by
  refine (coupled_valueText h.text).bind fun _ _ hvalue => ?_
  refine (coupled_annotate hG declared.type).bind fun hint? _ hsame => ?_
  subst hsame
  exact coupled_pure (hG.declaration declared.name hint? hvalue)

theorem coupled_writeArgument {declared : Parameter} {default : Option α}
    (h : Parallel S G f f' v w (.argument declared default)) :
    Coupled S (G (default.toList.map v).sum) (writeArgument options declared (default.map f))
      (writeArgument options declared (default.map f')) := by
  refine (coupled_valueText h.text).bind fun _ _ hvalue => ?_
  refine (coupled_annotate hG declared.type).bind fun hint? _ hsame => ?_
  subst hsame
  exact coupled_pure (hG.parameter declared.name hint? hvalue)

theorem coupled_writeAssignment {name : String}
    (h : Parallel S G f f' v w (.assignment name value)) :
    Coupled S (G (v value)) (writeAssignment name (f value)) (writeAssignment name (f' value)) :=
  (h.text value List.mem_cons_self).bind fun _ _ htext =>
    coupled_pure (hG.after htext (name ++ " = "))

/-- The operand counts as a text and as an operand. -/
theorem coupled_writeUnary {op : UnaryOperator} {type : DataType}
    (h : Parallel S G f f' v w (.unary op value type)) :
    Coupled S (G (v value + w value)) (writeUnary op (f value)) (writeUnary op (f' value)) :=
  (h.operand value List.mem_cons_self).bind fun _ _ htext => coupled_pure (hG.after htext _)

/-- Both operands count as texts and as operands. -/
theorem coupled_writeBinary {op : BinaryOperator} {lhs rhs : α} {type : DataType}
    (h : Parallel S G f f' v w (.binary op lhs rhs type)) :
    Coupled S (G (v lhs + w lhs + (v rhs + w rhs))) (writeBinary op (f lhs) (f rhs))
      (writeBinary op (f' lhs) (f' rhs)) := by
  obtain ⟨hlhs, hrhs⟩ := List.forall_mem_cons.mp h.operand
  refine hlhs.bind fun _ _ hs => (hrhs rhs List.mem_cons_self).bind fun _ _ hs' => ?_
  exact coupled_pure (hG.append (hG.before (hG.before (hG.before hs " ") _) " ") hs')

theorem coupled_writeCast {type : DataType} (h : Parallel S G f f' v w (.cast value type)) :
    Coupled S (G (v value)) (writeCast (f value) type) (writeCast (f' value) type) := by
  refine (h.text value List.mem_cons_self).bind fun _ _ htext => ?_
  split
  · next name _ => exact coupled_pure (hG.enclose htext (name ++ "(") ")")
  · exact coupled_pure htext

theorem coupled_writeBlock {name : String} {nodes : List α}
    (h : Parallel S G f f' v w (.block name nodes)) :
    Coupled S (G (nodes.map v).sum) (writeBlock (nodes.map f)) (writeBlock (nodes.map f')) := by
  cases nodes with
  | nil => exact coupled_pure (hG.refl "pass")
  | cons =>
      exact (coupled_statements hG h.text h.comment).bind fun _ _ hall =>
        coupled_pure (hG.joinLines hall)

theorem coupled_writePrototype (isMethod : Bool) {signature : Signature} {arguments : List α}
    (h : Parallel S G f f' v w (.prototype signature arguments)) :
    Coupled S (G (arguments.map v).sum)
      (writePrototype options isMethod signature (arguments.map f))
      (writePrototype options isMethod signature (arguments.map f')) := by
  refine (coupled_texts h.text).bind fun _ _ hall => ?_
  refine (coupled_annotate hG signature.returnType).bind fun result _ hsame => ?_
  subst hsame
  have hparameters := (hG.all_refl (if isMethod then ["self"] else [])).append hall
  rw [Nat.zero_add] at hparameters
  have hhead := hG.enclose (hG.commaList hparameters) ("def " ++ signature.name ++ "(") ")"
  exact coupled_pure (hG.before hhead _)

/-- A function is as far from another as head and body together. -/
theorem coupled_writeFunction {head : α} (h : Parallel S G f f' v w (.function head part)) :
    Coupled S (G (v head + v part)) (writeFunction options (f head) (f part))
      (writeFunction options (f' head) (f' part)) := by
  obtain ⟨hhead, hpart⟩ := List.forall_mem_cons.mp h.text
  refine hhead.bind fun _ _ hs => ?_
  refine (coupled_body hG (hpart part List.mem_cons_self)).bind fun _ _ hs' => ?_
  exact coupled_pure (hG.append (hG.before hs ":\n") hs')

theorem coupled_writeCall {callee : String} {arguments : List α} {type : DataType}
    (h : Parallel S G f f' v w (.call callee arguments type)) :
    Coupled S (G (arguments.map v).sum) (writeCall callee (arguments.map f))
      (writeCall callee (arguments.map f')) :=
  (coupled_texts h.text).bind fun _ _ hall =>
    coupled_pure (hG.enclose (hG.commaList hall) (callee ++ "(") ")")

theorem coupled_writeReturn {value : Option α} (h : Parallel S G f f' v w (.returning value)) :
    Coupled S (G (value.toList.map v).sum) (writeReturn (value.map f))
      (writeReturn (value.map f')) := by
  cases value with
  | none => exact coupled_pure (hG.refl "return")
  | some c =>
      exact (h.text c List.mem_cons_self).bind fun _ _ htext =>
        coupled_pure (hG.after htext "return ")

/-- Alternatives are as far apart as their texts if both continue the chain or neither
does. -/
theorem coupled_writeElse {alternative : Option α}
    (h : ∀ c ∈ alternative.toList, Coupled S (G (v c)) (f c).2 (f' c).2)
    (helif : ∀ c ∈ alternative, isElif (f c).1 = isElif (f' c).1) :
    Coupled S (G (alternative.toList.map v).sum) (writeElse options (alternative.map f))
      (writeElse options (alternative.map f')) := by
  cases alternative with
  | none => exact coupled_pure (hG.refl "")
  | some c =>
      have hblock := h c List.mem_cons_self
      rw [Option.map_some, Option.map_some, writeElse, writeElse, helif c rfl]
      split
      · exact hblock.bind fun _ _ hlast => coupled_pure (hG.after hlast "\nel")
      · exact (coupled_body hG hblock).bind fun _ _ hlast =>
          coupled_pure (hG.after hlast "\nelse:\n")

/-- The alternatives of both conditionals are written in the same way. -/
theorem coupled_writeConditional {condition consequent : α} {alternative : Option α}
    (h : Parallel S G f f' v w (.conditional condition consequent alternative)) :
    Coupled S (G (v condition + v consequent + (alternative.toList.map v).sum))
      (writeConditional options (f condition) (f consequent) (alternative.map f))
      (writeConditional options (f' condition) (f' consequent) (alternative.map f')) := by
  obtain ⟨hcondition, htext⟩ := List.forall_mem_cons.mp h.text
  obtain ⟨hconsequent, halternative⟩ := List.forall_mem_cons.mp htext
  refine hcondition.bind fun _ _ hs => (coupled_body hG hconsequent).bind fun _ _ hs' => ?_
  refine (coupled_writeElse hG halternative h.isElif).bind fun _ _ hlast => ?_
  exact coupled_pure (hG.append (hG.append (hG.enclose hs "if " ":\n") hs') hlast)

theorem coupled_writeWhile {condition : α} (h : Parallel S G f f' v w (.whileLoop condition part)) :
    Coupled S (G (v condition + v part)) (writeWhile options (f condition) (f part))
      (writeWhile options (f' condition) (f' part)) := by
  obtain ⟨hcondition, hpart⟩ := List.forall_mem_cons.mp h.text
  refine hcondition.bind fun _ _ hs => ?_
  refine (coupled_body hG (hpart part List.mem_cons_self)).bind fun _ _ hs' => ?_
  exact coupled_pure (hG.append (hG.enclose hs "while " ":\n") hs')

/-- Several conditions are operands of a conjunction, one is written as it is. -/
theorem coupled_conjunction (h : ∀ c ∈ cs, Coupled S (G (v c)) (f c).2 (f' c).2)
    (hoperand : ∀ c ∈ if 1 < cs.length then cs else [],
      Coupled S (G (v c + w c)) (operand (f c)) (operand (f' c))) :
    Coupled S (G ((cs.map v).sum + ((if 1 < cs.length then cs else []).map w).sum))
      (conjunction (cs.map f)) (conjunction (cs.map f')) := by
  rcases cs with - | ⟨c, - | ⟨c', cs⟩⟩
  · exact coupled_pure (hG.refl _)
  · exact h c List.mem_cons_self
  · have hlong : 1 < (c :: c' :: cs).length := by simp
    rw [if_pos hlong] at hoperand ⊢
    have hoperands : Coupled S
        (Compared G (((c :: c' :: cs).map v).sum + ((c :: c' :: cs).map w).sum))
        (((c :: c' :: cs).map f).mapM operand) (((c :: c' :: cs).map f').mapM operand) := by
      rw [List.mapM_map, List.mapM_map, ← List.sum_map_add]
      exact coupled_mapM hoperand
    exact hoperands.bind fun _ _ hall => coupled_pure (hG.intercalate " and " hall)

/-- Several conditions of a loop count as texts and as operands, a single one as a text. -/
theorem coupled_filtered {s t : String} (h : ∀ c ∈ cs, Coupled S (G (v c)) (f c).2 (f' c).2)
    (hoperand : ∀ c ∈ if 1 < cs.length then cs else [],
      Coupled S (G (v c + w c)) (operand (f c)) (operand (f' c))) (hinner : G k s t) :
    Coupled S (G ((cs.map v).sum + ((if 1 < cs.length then cs else []).map w).sum + k))
      (filtered options (cs.map f) s) (filtered options (cs.map f') t) := by
  cases cs with
  | nil => exact (coupled_pure hinner).of_eq (Nat.zero_add k)
  | cons =>
      refine (coupled_conjunction hG h hoperand).bind fun _ _ hs => coupled_pure ?_
      exact hG.indent options (hG.append (hG.enclose hs "if " ":\n") hinner)

/-- The conditions of a loop stand between its head and its body on both sides. -/
theorem coupled_writeFor {names iterable : α} {conditions : List α}
    (h : Parallel S G f f' v w (.forLoop names iterable conditions part)) :
    Coupled S (G (v names + v iterable + ((conditions.map v).sum +
        ((if 1 < conditions.length then conditions else []).map w).sum + v part)))
      (writeFor options (f names) (f iterable) (conditions.map f) (f part))
      (writeFor options (f' names) (f' iterable) (conditions.map f') (f' part)) := by
  obtain ⟨-, htext⟩ := List.forall_mem_cons.mp h.text
  obtain ⟨hiterable, htext⟩ := List.forall_mem_cons.mp htext
  obtain ⟨hconditions, hpart⟩ := List.forall_mem_append.mp htext
  refine (h.target names rfl).bind fun _ _ hbound => hiterable.bind fun _ _ hs => ?_
  refine (coupled_body hG (hpart part List.mem_cons_self)).bind fun _ _ hs' => ?_
  refine (coupled_filtered hG hconditions h.operand hs').bind fun _ _ hinner => coupled_pure ?_
  have hhead := hG.append (hG.enclose hbound "for " " in ") hs
  exact hG.append (hG.before hhead ":\n") hinner

theorem coupled_writeRange {counter start stop : α} {step : Option α}
    (h : Parallel S G f f' v w (.rangeLoop counter start stop step part)) :
    Coupled S (G (v counter + (v start + (v stop + (step.toList.map v).sum)) + v part))
      (writeRange options (f counter) (f start) (f stop) (step.map f) (f part))
      (writeRange options (f' counter) (f' start) (f' stop) (step.map f') (f' part)) := by
  obtain ⟨-, htext⟩ := List.forall_mem_cons.mp h.text
  obtain ⟨hstart, htext⟩ := List.forall_mem_cons.mp htext
  obtain ⟨hstop, htext⟩ := List.forall_mem_cons.mp htext
  obtain ⟨hstep, hpart⟩ := List.forall_mem_append.mp htext
  refine (h.target counter rfl).bind fun _ _ hbound => ?_
  refine hstart.bind fun _ _ hs => hstop.bind fun _ _ hs' => ?_
  refine (coupled_valueText hstep).bind fun _ _ hvalue => ?_
  refine (coupled_body hG (hpart part List.mem_cons_self)).bind fun _ _ hinner => coupled_pure ?_
  have hbounds := hG.commaList ((hvalue.cons hs').cons hs)
  have hhead := hG.append (hG.enclose hbound "for " " in range(") hbounds
  exact hG.append (hG.before hhead "):\n") hinner

theorem coupled_writeClause {names iterable : α} {conditions : List α} {isAsync : Bool}
    (h : Parallel S G f f' v w (.clause names iterable conditions isAsync)) :
    Coupled S (G (v names + v iterable + (conditions.map v).sum))
      (writeClause (f names) (f iterable) (conditions.map f) isAsync)
      (writeClause (f' names) (f' iterable) (conditions.map f') isAsync) := by
  obtain ⟨-, htext⟩ := List.forall_mem_cons.mp h.text
  obtain ⟨hiterable, hconditions⟩ := List.forall_mem_cons.mp htext
  refine (h.target names rfl).bind fun _ _ hbound => hiterable.bind fun _ _ hs => ?_
  refine (coupled_texts hconditions).bind fun _ _ hall => coupled_pure ?_
  have hfilters := hG.joined hall fun h => hG.after h " if "
  exact hG.append (hG.append (hG.enclose hbound _ " in ") hs) hfilters

theorem coupled_writeComprehension {kind : ComprehensionKind} {element : α} {generators : List α}
    {type : DataType} (h : Parallel S G f f' v w (.comprehension kind element generators type)) :
    Coupled S (G (v element + (generators.map v).sum))
      (writeComprehension kind (f element) (generators.map f))
      (writeComprehension kind (f' element) (generators.map f')) := by
  obtain ⟨helement, hgenerators⟩ := List.forall_mem_cons.mp h.text
  refine helement.bind fun _ _ hs => (coupled_texts hgenerators).bind fun _ _ hall => ?_
  have hinner := hG.append hs (hG.joined hall fun h => hG.after h " ")
  cases kind with
  | list => exact coupled_pure (hG.enclose hinner "[" "]")
  | set => exact coupled_pure (hG.enclose hinner "\x7b" "\x7d")
  | generator => exact coupled_pure (hG.enclose hinner "(" ")")

theorem coupled_classHead (header : ClassHeader) {bases decorators : List α}
    (hbases : ∀ c ∈ bases, Coupled S (G (v c)) (f c).2 (f' c).2)
    (hdecorators : ∀ c ∈ decorators, Coupled S (G (v c)) (f c).2 (f' c).2) :
    Coupled S (G ((decorators.map v).sum + (bases.map v).sum))
      (classHead header (bases.map f) (decorators.map f))
      (classHead header (bases.map f') (decorators.map f')) := by
  refine (coupled_texts hdecorators).bind fun ss ts hdecorated => ?_
  refine (coupled_texts hbases).bind fun _ _ hnamed => ?_
  have habove := hG.joined hdecorated fun h => hG.enclose h "@" "\n"
  have hhead : ∀ {ss' ts'}, Compared G (bases.map v).sum ss' ts' →
      G ((decorators.map v).sum + (bases.map v).sum)
        (String.join (ss.map fun text => "@" ++ text ++ "\n") ++ "class " ++ header.name ++
          (if ss'.isEmpty then "" else "(" ++ commaList ss' ++ ")") ++ ":")
        (String.join (ts.map fun text => "@" ++ text ++ "\n") ++ "class " ++ header.name ++
          (if ts'.isEmpty then "" else "(" ++ commaList ts' ++ ")") ++ ":") := by
    intro ss' ts' h
    exact hG.before (hG.append (hG.before (hG.before habove _) _) (hG.inherited h)) ":"
  split
  · exact (hG.note needAbc).bind fun _ _ _ =>
      coupled_pure (hhead (hnamed.append (hG.all_refl ["ABC"])))
  · exact coupled_pure (hhead hnamed)

theorem coupled_writeClassDecl {header : ClassHeader} {bases decorators : List α}
    (h : Parallel S G f f' v w (.classDecl header bases decorators)) :
    Coupled S (G ((decorators.map v).sum + (bases.map v).sum))
      (writeClassDecl options header (bases.map f) (decorators.map f))
      (writeClassDecl options header (bases.map f') (decorators.map f')) := by
  obtain ⟨hbases, hdecorators⟩ := List.forall_mem_append.mp h.text
  refine (coupled_classHead hG header hbases hdecorators).bind fun _ _ hhead => ?_
  exact coupled_pure (hG.before (hG.before hhead "\n") _)

/-- The bodies of both classes have their members in the same order. -/
theorem coupled_writeClassDef {header : ClassHeader} {bases decorators attributes methods : List α}
    (h : Parallel S G f f' v w (.classDef header bases decorators attributes methods)) :
    Coupled S (G ((decorators.map v).sum + (bases.map v).sum +
        ((attributes.map v).sum + (methods.map v).sum)))
      (writeClassDef options header (bases.map f) (decorators.map f) (attributes.map f)
        (methods.map f))
      (writeClassDef options header (bases.map f') (decorators.map f') (attributes.map f')
        (methods.map f')) := by
  obtain ⟨htext, hmethods⟩ := List.forall_mem_append.mp h.text
  obtain ⟨htext, hattributes⟩ := List.forall_mem_append.mp htext
  obtain ⟨hbases, hdecorators⟩ := List.forall_mem_append.mp htext
  obtain ⟨hcomment, hmethods'⟩ := List.forall_mem_append.mp h.comment
  obtain ⟨-, hattributes'⟩ := List.forall_mem_append.mp hcomment
  refine (coupled_classHead hG header hbases hdecorators).bind fun _ _ hhead => ?_
  refine (coupled_statements hG hattributes hattributes').bind fun _ _ hfirst => ?_
  refine (coupled_statements hG hmethods hmethods').bind fun _ _ hlast => coupled_pure ?_
  have hlines := hG.indent options (hG.joinLines (hG.members hfirst hlast))
  exact hG.append (hG.before hhead "\n") hlines

end Rules

/-! ## Nodes -/

section Nodes

variable {S : Imports → Imports → Prop} {G : Nat → String → String → Prop} {options : PythonOptions}
  {α : Type} {f f' : α → Part} {v w : α → Nat} {p : Payload α}

/-- Modules are as far apart as their statements, since the same imports stand above
both. -/
theorem coupled_writeModule (hG : Comparison (· = ·) G)
    (hmodule : ∀ {k s t} imports, G k s t → G k (moduleText imports s) (moduleText imports t))
    {name : String} {nodes : List α} (h : Parallel (· = ·) G f f' v w (.module name nodes)) :
    Coupled (· = ·) (G (nodes.map v).sum) (writeModule (nodes.map f))
      (writeModule (nodes.map f')) := by
  refine (coupled_self (set Imports.none)).bind fun _ _ _ => ?_
  refine (coupled_statements hG h.text h.comment).bind fun _ _ hall => ?_
  refine (coupled_self get).bind fun imports _ hsame => ?_
  subst hsame
  exact coupled_pure (hmodule imports (hG.joinLines hall))

/-- The texts of two nodes with one payload are as far apart as those of their children
and, in addition, as their operands. -/
theorem coupled_nodeText (hG : Comparison S G) (h : Parallel S G f f' v w p)
    (hmodule : ∀ name nodes, p = .module name nodes →
      Coupled S (G (nodes.map v).sum) (writeModule (nodes.map f)) (writeModule (nodes.map f')))
    {info info' : TermInfo} (hinfo : info.isMethod = info'.isMethod) :
    Coupled S (G ((p.children.map v).sum + (p.operands.map w).sum))
      (nodeText options info (p.map f)) (nodeText options info' (p.map f')) := by
  -- A rule adds up the amounts in the order in which it writes the parts.
  cases p with
  | literal value type => exact coupled_literal hG value type
  | «variable» | breaking | continuing => exact coupled_pure (hG.refl _)
  | collection => exact coupled_writeCollection hG h
  | mapping => exact coupled_writeMapping hG h
  | declaration => exact coupled_writeDeclaration hG h
  | argument => exact coupled_writeArgument hG h
  | assignment => exact (coupled_writeAssignment hG h).of_eq rfl
  | unary op part => exact (coupled_writeUnary hG h).of_eq (Nat.add_right_comm _ _ _)
  | binary =>
      apply (coupled_writeBinary hG h).of_eq
      simp only [Payload.children, Payload.operands, List.map_cons, List.map_nil, List.sum_cons,
        List.sum_nil]
      omega
  | cast => exact (coupled_writeCast hG h).of_eq rfl
  | block => exact coupled_writeBlock hG h
  | module name nodes => exact hmodule name nodes rfl
  | prototype =>
      rw [Payload.map, Payload.map, nodeText, nodeText, hinfo]
      exact coupled_writePrototype hG info'.isMethod h
  | function => exact (coupled_writeFunction hG h).of_eq rfl
  | call => exact coupled_writeCall hG h
  | returning => exact coupled_writeReturn hG h
  | conditional => exact (coupled_writeConditional hG h).of_eq (Nat.add_assoc _ _ _).symm
  | whileLoop => exact (coupled_writeWhile hG h).of_eq rfl
  | forLoop =>
      apply (coupled_writeFor hG h).of_eq
      simp only [Payload.children, Payload.operands, List.map_cons, List.map_append, List.map_nil,
        List.sum_cons, List.sum_append, List.sum_nil]
      omega
  | rangeLoop =>
      apply (coupled_writeRange hG h).of_eq
      simp only [Payload.children, Payload.operands, List.map_cons, List.map_append, List.map_nil,
        List.sum_cons, List.sum_append, List.sum_nil]
      omega
  | clause => exact (coupled_writeClause hG h).of_eq (Nat.add_assoc _ _ _).symm
  | comprehension => exact (coupled_writeComprehension hG h).of_eq rfl
  | classDecl =>
      apply (coupled_writeClassDecl hG h).of_eq
      simp only [Payload.children, Payload.operands, List.map_append, List.map_nil,
        List.sum_append, List.sum_nil]
      omega
  | classDef =>
      apply (coupled_writeClassDef hG h).of_eq
      simp only [Payload.children, Payload.operands, List.map_append, List.map_nil,
        List.sum_append, List.sum_nil]
      omega

/-- A module shows what its statements noted. Where both nodes note the same, its text is
as far apart as what stands below the imports. -/
theorem coupled_nodeText_of_moduleText (hG : Comparison (· = ·) G)
    (hmodule : ∀ {k s t} imports, G k s t → G k (moduleText imports s) (moduleText imports t))
    (h : Parallel (· = ·) G f f' v w p) {info info' : TermInfo}
    (hinfo : info.isMethod = info'.isMethod) :
    Coupled (· = ·) (G ((p.children.map v).sum + (p.operands.map w).sum))
      (nodeText options info (p.map f)) (nodeText options info' (p.map f')) := by
  apply coupled_nodeText hG h ?_ hinfo
  rintro name nodes rfl
  exact coupled_writeModule hG hmodule h

end Nodes

end Python

end TypedSyntax
