import TypedSyntax.Proofs.DataType
import TypedSyntax.Proofs.Literal

/-!
# Nodes read back from exports

What a simplified export shows of a node is all that its normal form keeps.
The tag is a word and a caption, from which the attributes are read back; the
content has the exports of the children.
-/

namespace TypedSyntax

/-! ## Words and captions -/

/-- What stands in brackets after the word of a tag. -/
inductive Caption where
  | none
  | name (name : String)
  | type (type : DataType)
  | typed (name : String) (type : DataType)
  | header (header : ClassHeader)

namespace Caption

def text : Caption → String
  | .none => ""
  | .name s => bracketed "" s
  | .type t => bracketed "" t.key
  | .typed s t => bracketed "" (s ++ ": " ++ t.key)
  | .header h => h.tag ""

/-- The forms of captions. -/
inductive Form where
  | none
  | name
  | type
  | typed
  | header

def form : Caption → Form
  | .none => .none
  | .name _ => .name
  | .type _ => .type
  | .typed .. => .typed
  | .header _ => .header

end Caption

/-- The words at the beginning of tags. -/
inductive Word where
  | literal
  | collection (kind : CollectionKind)
  | mapping
  | «variable»
  | declaration
  | assignment
  | unary
  | binary
  | cast
  | block
  | module
  | argument
  | prototype
  | function
  | call
  | returning
  | conditional
  | whileLoop
  | forLoop
  | rangeLoop
  | breaking
  | continuing
  | clause (isAsync : Bool)
  | comprehension (kind : ComprehensionKind)
  | classDecl
  | classDef
deriving DecidableEq

namespace Word

def all : List Word :=
  [.literal, .collection .list, .collection .set, .collection .tuple, .mapping, .variable,
    .declaration, .assignment, .unary, .binary, .cast, .block, .module, .argument, .prototype,
    .function, .call, .returning, .conditional, .whileLoop, .forLoop, .rangeLoop, .breaking,
    .continuing, .clause false, .clause true, .comprehension .list, .comprehension .set,
    .comprehension .generator, .classDecl, .classDef]

def text : Word → String
  | .literal => "LITERAL"
  | .collection .list => "LIST-LITERAL"
  | .collection .set => "SET-LITERAL"
  | .collection .tuple => "TUPLE-LITERAL"
  | .mapping => "MAP-LITERAL"
  | .variable => "VARIABLE"
  | .declaration => "VAR-DECL"
  | .assignment => "ASSIGN"
  | .unary => "UNARY"
  | .binary => "BINARY"
  | .cast => "CAST"
  | .block => "BLOCK"
  | .module => "MODULE"
  | .argument => "ARGUMENT"
  | .prototype => "PROTOTYPE"
  | .function => "FUNCTION-DEF"
  | .call => "CALL"
  | .returning => "RETURN"
  | .conditional => "IF-STMT"
  | .whileLoop => "WHILE-STMT"
  | .forLoop => "FOR-STMT"
  | .rangeLoop => "FOR-RANGE"
  | .breaking => "BREAK"
  | .continuing => "CONTINUE"
  | .clause false => "COMPREHENSION-CLAUSE"
  | .clause true => "ASYNC-COMPREHENSION-CLAUSE"
  | .comprehension .list => "LIST-COMPREHENSION"
  | .comprehension .set => "SET-COMPREHENSION"
  | .comprehension .generator => "GENERATOR-EXPR"
  | .classDecl => "CLASS-DECL"
  | .classDef => "CLASS-DEF"

theorem mem_all (w : Word) : w ∈ all := by
  cases w with
  | collection kind | comprehension kind => cases kind <;> decide
  | clause isAsync => cases isAsync <;> decide
  | _ => decide

/-- Different words begin different tags. -/
theorem text_injective : Function.Injective text := by
  intro w w' h
  have hnodup : (all.map text).Nodup := by decide
  exact List.inj_on_of_nodup_map hnodup (mem_all w) (mem_all w') h

theorem ne_bracket_of_mem_text (w : Word) : ∀ c ∈ w.text.toList, (c != '[') = true := by
  have hall : (all.all fun w => w.text.toList.all (· != '[')) = true := by decide
  exact List.all_eq_true.mp (List.all_eq_true.mp hall w (mem_all w))

end Word

namespace Payload

variable {α : Type}

/-- The word of a node's tag. -/
def word : Payload α → Word
  | .literal .. => .literal
  | .collection kind _ _ => .collection kind
  | .mapping .. => .mapping
  | .variable .. => .variable
  | .declaration .. => .declaration
  | .assignment .. => .assignment
  | .unary .. => .unary
  | .binary .. => .binary
  | .cast .. => .cast
  | .block .. => .block
  | .module .. => .module
  | .argument .. => .argument
  | .prototype .. => .prototype
  | .function .. => .function
  | .call .. => .call
  | .returning .. => .returning
  | .conditional .. => .conditional
  | .whileLoop .. => .whileLoop
  | .forLoop .. => .forLoop
  | .rangeLoop .. => .rangeLoop
  | .breaking => .breaking
  | .continuing => .continuing
  | .clause _ _ _ isAsync => .clause isAsync
  | .comprehension kind _ _ _ => .comprehension kind
  | .classDecl .. => .classDecl
  | .classDef .. => .classDef

/-- The caption of a node's tag. -/
def caption : Payload Term → Caption
  | .literal _ type => .type type
  | .variable name _ => .name name
  | .declaration declared _ => .typed declared.name declared.type
  | .assignment name _ => .name name
  | .unary op _ _ => .name op.token
  | .binary op _ _ _ => .name op.token
  | .cast _ target => .type target
  | .block name _ => .name name
  | .module name _ => .name name
  | .argument parameter _ => .typed parameter.name parameter.type
  | .prototype signature _ => .name signature.name
  | .function (.node _ (.prototype signature _)) _ => .name signature.name
  | .call callee _ _ => .name callee
  | .classDecl header _ _ => .header header
  | .classDef header _ _ _ _ => .header header
  | _ => .none

/-- The class that a node declares or defines. -/
def header? : Payload α → Option ClassHeader
  | .classDecl header _ _ => some header
  | .classDef header _ _ _ _ => some header
  | _ => none

/-- The name of a class does not end like the tag of an abstract class. -/
def Distinct (p : Payload α) : Prop :=
  ∀ header ∈ p.header?, ¬ ", abstract".toList <:+ header.name.toList

instance (p : Payload α) : Decidable p.Distinct :=
  decidable_of_iff (∀ header ∈ p.header?.toList, ¬ ", abstract".toList <:+ header.name.toList)
    (by simp [Distinct])

theorem distinct_map {β : Type} {f : α → β} {p : Payload α} (h : p.Distinct) :
    (p.map f).Distinct := by
  cases p <;> exact h

/-- The head of a function is the node of a prototype. -/
theorem Headed.exists_prototype {head body : Term} (h : Headed (.function head body)) :
    ∃ info signature arguments, head = .node info (.prototype signature arguments) := by
  obtain ⟨info, p⟩ := head
  have hkind := h _ _ rfl
  cases p with
  | prototype signature arguments => exact ⟨info, signature, arguments, rfl⟩
  | _ => cases hkind

end Payload

/-- The tag of a node is its word and its caption. -/
theorem Term.label_eq {t : Term} (h : t.payload.Headed) :
    t.label = t.payload.word.text ++ t.payload.caption.text := by
  obtain ⟨info, p⟩ := t
  have hbracketed : ∀ word inner, bracketed word inner = word ++ bracketed "" inner := by
    intro word inner
    simp [bracketed, String.append_assoc]
  have hword : ∀ word : String, word = word ++ "" := fun _ => String.append_empty.symm
  cases p with
  | collection kind | comprehension kind => cases kind <;> exact hword _
  | clause _ _ _ isAsync => cases isAsync <;> exact hword _
  | function head body =>
      obtain ⟨_, _, _, rfl⟩ := Payload.Headed.exists_prototype h
      exact hbracketed _ _
  | mapping | returning | conditional | whileLoop | forLoop | rangeLoop | breaking | continuing =>
      exact hword _
  | _ => exact hbracketed _ _

/-- An abstract class and a class with its visibility that is not abstract and whose
name ends like the tag of the first. -/
def ClassHeader.Clash (h h' : ClassHeader) : Prop :=
  h.isAbstract = true ∧ h' = ⟨h.name ++ ", abstract", false, h.visibility⟩

theorem ClassHeader.Clash.suffix {h h' : ClassHeader} (hclash : h.Clash h') :
    ", abstract".toList <:+ h'.name.toList := by
  obtain ⟨-, rfl⟩ := hclash
  exact ⟨h.name.toList, String.toList_append.symm⟩

/-- Classes that clash have one tag. -/
theorem ClassHeader.Clash.tag_eq {h h' : ClassHeader} (hclash : h.Clash h') :
    h.tag "" = h'.tag "" := by
  obtain ⟨habstract, rfl⟩ := hclash
  simp [tag, habstract, String.append_assoc]

namespace Caption

/-- The form of the caption after a word. -/
def formAfter : Word → Form
  | .literal | .cast => .type
  | .declaration | .argument => .typed
  | .classDecl | .classDef => .header
  | .variable | .assignment | .unary | .binary | .block | .module | .prototype | .function
  | .call => .name
  | _ => .none

/-- The word of a tag tells the form of its caption. -/
theorem form_caption {p : Payload Term} (h : p.Headed) : p.caption.form = formAfter p.word := by
  cases p with
  | function head body =>
      obtain ⟨_, _, _, rfl⟩ := h.exists_prototype
      rfl
  | _ => rfl

theorem eq_of_bracketed_eq {s s' : String} (h : bracketed "" s = bracketed "" s') : s = s' := by
  apply String.toList_inj.mp
  simpa [bracketed, ← String.toList_inj] using h

/-- Classes with one tag are the same or clash. -/
theorem eq_or_clash_of_tag_eq {h h' : ClassHeader} (he : h.tag "" = h'.tag "") :
    h = h' ∨ h.Clash h' ∨ h'.Clash h := by
  obtain ⟨name, isAbstract, visibility⟩ := h
  obtain ⟨name', isAbstract', visibility'⟩ := h'
  have hparts := congrArg String.toList (eq_of_bracketed_eq he)
  simp only [String.toList_append, Char.toString, String.toList_singleton, List.cons_append,
    List.cons.injEq] at hparts
  obtain ⟨hmarker, hname⟩ := hparts
  have hvisibility : visibility = visibility' := by
    revert hmarker
    cases visibility <;> cases visibility' <;> decide
  subst hvisibility
  cases isAbstract <;> cases isAbstract'
  · obtain rfl : name = name' := String.toList_inj.mp (by simpa using hname)
    exact Or.inl rfl
  · obtain rfl : name = name' ++ ", abstract" := String.toList_inj.mp (by simpa using hname)
    exact Or.inr (Or.inr ⟨rfl, rfl⟩)
  · obtain rfl : name' = name ++ ", abstract" := String.toList_inj.mp (by simpa using hname.symm)
    exact Or.inr (Or.inl ⟨rfl, rfl⟩)
  · obtain rfl : name = name' := String.toList_inj.mp (by simpa using hname)
    exact Or.inl rfl

/-- Without the marking words at the end of a name, a tag is that of one class. -/
theorem eq_of_tag_eq {h h' : ClassHeader} (hh : ¬ ", abstract".toList <:+ h.name.toList)
    (hh' : ¬ ", abstract".toList <:+ h'.name.toList) (he : h.tag "" = h'.tag "") : h = h' := by
  rcases eq_or_clash_of_tag_eq he with heq | hclash | hclash
  · exact heq
  · exact (hh' hclash.suffix).elim
  · exact (hh hclash.suffix).elim

/-- The parts around a last colon. -/
theorem eq_of_append_colon_eq {cs cs' rest rest' : List Char} (hrest : ':' ∉ rest)
    (hrest' : ':' ∉ rest') (h : cs ++ ':' :: rest = cs' ++ ':' :: rest') :
    cs = cs' ∧ rest = rest' := by
  have hne : ∀ {cs : List Char}, ':' ∉ cs → ∀ c ∈ cs.reverse, (c != ':') = true := by
    intro cs hcs c hc
    exact bne_iff_ne.mpr fun he => hcs (he ▸ List.mem_reverse.mp hc)
  have hreverse := congrArg List.reverse h
  rw [List.reverse_append, List.reverse_append, List.reverse_cons, List.reverse_cons,
    List.append_assoc, List.append_assoc] at hreverse
  obtain ⟨hr, hc⟩ := eq_of_append_eq (hne hrest) (hne hrest') rfl rfl hreverse
  exact ⟨List.reverse_injective (List.cons.inj hc).2, List.reverse_injective hr⟩

/-- The name of a class does not end like the tag of an abstract class. -/
def Distinct (c : Caption) : Prop :=
  ∀ h, c = .header h → ¬ ", abstract".toList <:+ h.name.toList

theorem distinct_caption {p : Payload Term} (h : p.Distinct) : p.caption.Distinct := by
  intro header hcaption
  apply h
  cases p with
  | classDecl | classDef => exact congrArg some (Caption.header.inj hcaption)
  | function head body =>
      obtain ⟨_, q⟩ := head
      cases q <;> cases hcaption
  | _ => cases hcaption

/-- Captions of one form with the same text are the same. -/
theorem eq_of_text_eq {c c' : Caption} (hform : c.form = c'.form) (hc : c.Distinct)
    (hc' : c'.Distinct) (h : c.text = c'.text) : c = c' := by
  cases c with
  | none =>
      cases c' with
      | none => rfl
      | _ => cases hform
  | name s =>
      cases c' with
      | name s' => rw [eq_of_bracketed_eq h]
      | _ => cases hform
  | type t =>
      cases c' with
      | type t' => rw [DataType.key_injective (eq_of_bracketed_eq h)]
      | _ => cases hform
  | typed s t =>
      cases c' with
      | typed s' t' =>
          have hparts := congrArg String.toList (eq_of_bracketed_eq h)
          simp only [String.toList_append, List.append_assoc] at hparts
          have hspace : ∀ t : DataType, ':' ∉ ' ' :: t.key.toList := by
            intro t ht
            rcases List.mem_cons.mp ht with he | ht
            · cases he
            · exact t.colon_notMem_key ht
          obtain ⟨hname, htype⟩ := eq_of_append_colon_eq (hspace t) (hspace t') hparts
          rw [String.toList_inj.mp hname,
            DataType.key_injective (String.toList_inj.mp (List.cons.inj htype).2)]
      | _ => cases hform
  | header h₁ =>
      cases c' with
      | header h₂ => rw [eq_of_tag_eq (hc h₁ rfl) (hc' h₂ rfl) h]
      | _ => cases hform

end Caption

/-! ## Reading nodes back -/

namespace DataType

open Classical in
/-- The type with a key. -/
noncomputable def ofKey (key : String) : DataType :=
  if h : ∃ t : DataType, t.key = key then h.choose else .any

theorem ofKey_key (t : DataType) : ofKey t.key = t := by
  have h : ∃ t' : DataType, t'.key = t.key := ⟨t, rfl⟩
  rw [ofKey, dif_pos h]
  exact key_injective h.choose_spec

end DataType

namespace LiteralValue

open Classical in
/-- The canonical value of a type with an export. -/
noncomputable def ofDatum (type : DataType) (d : Datum) : LiteralValue :=
  if h : ∃ v : LiteralValue, v.Belongs type ∧ v.toDatum = d then h.choose.canonical else .bool false

/-- A literal is read back from its export and its type, up to its canonical form. -/
theorem ofDatum_toDatum {v : LiteralValue} {type : DataType} (hv : v.Belongs type) :
    ofDatum type v.toDatum = v.canonical := by
  have h : ∃ v' : LiteralValue, v'.Belongs type ∧ v'.toDatum = v.toDatum := ⟨v, hv, rfl⟩
  rw [ofDatum, dif_pos h]
  exact h.choose_spec.1.canonical_eq hv h.choose_spec.2

end LiteralValue

/-- The export in an optional slot, where an empty map stands for none. -/
def Datum.optional : Datum → Option Datum
  | .map [] => none
  | d => some d

/-- The exports in an entry of a mapping. -/
def Datum.entry : Datum → Datum × Datum
  | .map [(_, key), (_, value)] => (key, value)
  | d => (d, d)

/-- The node with a word, a caption and a content, in normal form, with exports
in its slots. -/
noncomputable def Payload.assemble (word : Word) (caption : Caption) (content : Datum) :
    Option (Payload Datum) :=
  match word, caption, content with
  | .literal, .type t, d => some (.literal (.ofDatum t d) t)
  | .collection kind, .none, .list ds => some (.collection kind ds .any)
  | .mapping, .none, .list ds => some (.mapping (ds.map Datum.entry) .any)
  | .variable, .name s, _ => some (.variable s .any)
  | .declaration, .typed s t, d =>
    some (.declaration ⟨s, t, .constant, .«public», .«global»⟩ d.optional)
  | .assignment, .name s, d => some (.assignment s d)
  | .unary, .name s, d => (UnaryOperator.ofToken? s).map fun op => .unary op d .any
  | .binary, .name s, .map [(_, lhs), (_, rhs)] =>
    (BinaryOperator.ofToken? s).map fun op => .binary op lhs rhs .any
  | .cast, .type t, d => some (.cast d t)
  | .block, .name s, .list ds => some (.block s ds)
  | .module, .name s, .list ds => some (.module s ds)
  | .argument, .typed s t, d => some (.argument ⟨s, t, .constant⟩ d.optional)
  | .prototype, .name s, .map [(_, .list arguments), (_, .text key)] =>
    some (.prototype ⟨s, .ofKey key, .«global», .«public», .constant⟩ arguments)
  | .function, .name s, .map [arguments, returnType, (_, body)] =>
    some (.function (.single (bracketed "PROTOTYPE" s) (.map [arguments, returnType])) body)
  | .call, .name s, .list ds => some (.call s ds .any)
  | .returning, .none, d => some (.returning d.optional)
  | .conditional, .none, .map [(_, condition), (_, consequent)] =>
    some (.conditional condition consequent none)
  | .conditional, .none, .map [(_, condition), (_, consequent), (_, alternative)] =>
    some (.conditional condition consequent (some alternative))
  | .whileLoop, .none, .map [(_, condition), (_, body)] => some (.whileLoop condition body)
  | .forLoop, .none, .map [(_, target), (_, iterable), (_, .list conditions), (_, body)] =>
    some (.forLoop target iterable conditions body)
  | .rangeLoop, .none, .map [(_, counter), (_, start), (_, stop), (_, body)] =>
    some (.rangeLoop counter start stop none body)
  | .rangeLoop, .none, .map [(_, counter), (_, start), (_, stop), (_, step), (_, body)] =>
    some (.rangeLoop counter start stop (some step) body)
  | .breaking, .none, _ => some .breaking
  | .continuing, .none, _ => some .continuing
  | .clause isAsync, .none, .map [(_, target), (_, iterable), (_, .list conditions)] =>
    some (.clause target iterable conditions isAsync)
  | .comprehension kind, .none, .map [(_, element), (_, .list generators)] =>
    some (.comprehension kind element generators .any)
  | .classDecl, .header h, .map [(_, .list bases), (_, .list decorators)] =>
    some (.classDecl h bases decorators)
  | .classDef, .header h, .map [(_, .list bases), (_, .list decorators),
      (_, .list attributes), (_, .list methods)] =>
    some (.classDef h bases decorators attributes methods)
  | _, _, _ => none

/-- The normal form of a node is read back from its export, with the exports of
its children in its slots. -/
theorem Payload.assemble_eq {p : Payload Term} (hhead : p.Headed) (htyped : p.Typed) :
    assemble p.word p.caption
        (Term.contentOf (p.map fun c => ⟨c.content .simplified, c.datum .simplified⟩)) =
      some (p.map (Term.datum .simplified)).canonical := by
  have hlist : ∀ cs : List Term,
      (cs.map fun c => Term.Shown.mk (c.content .simplified) (c.datum .simplified)).map (·.datum) =
        cs.map (Term.datum .simplified) := by
    intro cs
    rw [List.map_map]
    rfl
  cases p with
  | literal v t =>
      exact congrArg (fun v => some (literal v t)) (LiteralValue.ofDatum_toDatum (htyped v t rfl))
  | mapping entries =>
      simp only [map, Term.contentOf, word, caption, assemble, List.map_map]
      rfl
  | declaration declared value | argument parameter value | returning value =>
      cases value <;> rfl
  | unary op operand =>
      simp only [word, caption, assemble, UnaryOperator.ofToken?_token]
      rfl
  | binary op operand =>
      simp only [word, caption, assemble, map, Term.contentOf, BinaryOperator.ofToken?_token]
      rfl
  | prototype signature arguments =>
      simp only [map, Term.contentOf, hlist, word, caption, assemble, DataType.ofKey_key]
      rfl
  | function head body =>
      obtain ⟨info, signature, arguments, rfl⟩ := hhead.exists_prototype
      have hcontent : (Term.node info (.prototype signature arguments)).content .simplified =
          .map [("args", .list (arguments.map (Term.datum .simplified))),
            ("return_type", .text signature.returnType.key)] := by
        rw [Term.content_eq_contentOf, Payload.map, Term.contentOf]
        simp only [hlist]
      have hdatum : (Term.node info (.prototype signature arguments)).datum .simplified =
          .single (bracketed "PROTOTYPE" signature.name) (.map
            [("args", .list (arguments.map (Term.datum .simplified))),
              ("return_type", .text signature.returnType.key)]) := by
        rw [Term.datum, hcontent]
        rfl
      simp only [map, hcontent, hdatum]
      rfl
  | conditional _ _ alternative => cases alternative <;> rfl
  | rangeLoop _ _ _ step => cases step <;> rfl
  | «variable» | assignment | cast | whileLoop | breaking | continuing => rfl
  | _ =>
      simp only [map, Term.contentOf, hlist]
      rfl

/-- What a tag and a content show of a node is all of its attributes. -/
structure Payload.Readable (p : Payload Term) : Prop where
  headed : p.Headed
  typed : p.Typed
  distinct : p.Distinct

namespace Term

variable {info info' : TermInfo} {p p' : Payload Term}

/-- A word ends where its caption begins. -/
theorem word_and_text_eq (hp : p.Headed) (hp' : p'.Headed)
    (h : (node info p).label = (node info' p').label) :
    p.word = p'.word ∧ p.caption.text = p'.caption.text := by
  have hstop : ∀ c : Caption, c.text.toList.takeWhile (· != '[') = [] := by
    intro c
    cases c <;> simp [Caption.text, ClassHeader.tag, bracketed]
  rw [label_eq (t := node info p) hp, label_eq (t := node info' p') hp'] at h
  have hparts := congrArg String.toList h
  rw [String.toList_append, String.toList_append] at hparts
  obtain ⟨hword, hcaption⟩ := eq_of_append_eq (Word.ne_bracket_of_mem_text _)
    (Word.ne_bracket_of_mem_text _) (hstop _) (hstop _) hparts
  exact ⟨Word.text_injective (String.toList_inj.mp hword), String.toList_inj.mp hcaption⟩

/-- Readable nodes with the same tag have the same word and caption. -/
theorem word_caption_eq (hp : p.Readable) (hp' : p'.Readable)
    (h : (node info p).label = (node info' p').label) :
    p.word = p'.word ∧ p.caption = p'.caption := by
  obtain ⟨hword, htext⟩ := word_and_text_eq hp.headed hp'.headed h
  refine ⟨hword, ?_⟩
  apply Caption.eq_of_text_eq
  · rw [Caption.form_caption hp.headed, Caption.form_caption hp'.headed, hword]
  · exact Caption.distinct_caption hp.distinct
  · exact Caption.distinct_caption hp'.distinct
  · exact htext

/-- Readable nodes with the same simplified export are the same in normal form,
up to their children, which have the same exports. -/
theorem canonical_eq_of_datum_eq (hp : p.Readable) (hp' : p'.Readable)
    (h : (node info p).datum .simplified = (node info' p').datum .simplified) :
    p.canonical.map (datum .simplified) = p'.canonical.map (datum .simplified) := by
  simp only [datum, exported, tagged, Datum.single, Datum.map.injEq, List.cons.injEq,
    Prod.mk.injEq, and_true] at h
  obtain ⟨hlabel, hcontent⟩ := h
  obtain ⟨hword, hcaption⟩ := word_caption_eq hp hp' hlabel
  rw [content_eq_contentOf, content_eq_contentOf] at hcontent
  have hread := Payload.assemble_eq hp.headed hp.typed
  have hread' := Payload.assemble_eq hp'.headed hp'.typed
  rw [← Payload.canonical_map, ← Payload.canonical_map]
  apply Option.some.inj
  rw [← hread, ← hread', hword, hcaption, hcontent]

end Term

end TypedSyntax
