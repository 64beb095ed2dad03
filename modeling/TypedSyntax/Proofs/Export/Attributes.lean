import TypedSyntax.Proofs.Export.Regular

/-!
# Attributes read back from tags

The tag of a node is made of its kind and of some of its attributes, whose names
are any strings. It shows which they are, with one exception: the tag of an
abstract class is also that of a class that is not abstract, if the name of the
second ends in the words that mark the first.
-/

namespace TypedSyntax

/-- What the tag of a node is made of. Attributes that nodes of a kind do not have
are absent. -/
structure Attributes where
  kind : Kind
  name : Option String := none
  type : Option DataType := none
  unary : Option UnaryOperator := none
  binary : Option BinaryOperator := none
  collection : Option CollectionKind := none
  comprehension : Option ComprehensionKind := none
  isAsync : Option Bool := none
  visibility : Option Visibility := none
  isAbstract : Option Bool := none
deriving DecidableEq, Repr

/-- The attributes of a class. -/
def ClassHeader.attributes (kind : Kind) (header : ClassHeader) : Attributes where
  kind := kind
  name := some header.name
  visibility := some header.visibility
  isAbstract := some header.isAbstract

/-- The attributes that the tag of a node is made of. A function bears the name of
its prototype. -/
def Payload.attributes (p : Payload Term) : Attributes :=
  match p with
  | .literal _ type => { kind := .literal, type := some type }
  | .collection kind _ _ => { kind := .collection, collection := some kind }
  | .mapping .. => { kind := .mapping }
  | .variable name _ => { kind := .variable, name := some name }
  | .declaration declared _ =>
    { kind := .declaration, name := some declared.name, type := some declared.type }
  | .assignment name _ => { kind := .assignment, name := some name }
  | .unary op _ _ => { kind := .unary, unary := some op }
  | .binary op _ _ _ => { kind := .binary, binary := some op }
  | .cast _ target => { kind := .cast, type := some target }
  | .block name _ => { kind := .block, name := some name }
  | .module name _ => { kind := .module, name := some name }
  | .argument parameter _ =>
    { kind := .argument, name := some parameter.name, type := some parameter.type }
  | .prototype signature _ => { kind := .prototype, name := some signature.name }
  | .function (.node _ (.prototype signature _)) _ =>
    { kind := .function, name := some signature.name }
  | .function _ _ => { kind := .function }
  | .call callee _ _ => { kind := .call, name := some callee }
  | .returning _ => { kind := .returning }
  | .conditional .. => { kind := .conditional }
  | .whileLoop .. => { kind := .whileLoop }
  | .forLoop .. => { kind := .forLoop }
  | .rangeLoop .. => { kind := .rangeLoop }
  | .breaking => { kind := .breaking }
  | .continuing => { kind := .continuing }
  | .clause _ _ _ isAsync => { kind := .clause, isAsync := some isAsync }
  | .comprehension kind _ _ _ => { kind := .comprehension, comprehension := some kind }
  | .classDecl header _ _ => header.attributes .classDecl
  | .classDef header _ _ _ _ => header.attributes .classDef

namespace Attributes

/-- The attributes of an abstract class, and those of a class of the same kind and
visibility that is not abstract and whose name ends in the words that mark the first
as abstract. -/
def Clash (a b : Attributes) : Prop :=
  a.isAbstract = some true ∧
    b = { a with name := a.name.map (· ++ ", abstract"), isAbstract := some false }

/-- The word of the tag that is made of attributes. -/
def word (a : Attributes) : Word :=
  match a.kind with
  | .literal => .literal
  | .collection => .collection (a.collection.getD .list)
  | .mapping => .mapping
  | .variable => .variable
  | .declaration => .declaration
  | .assignment => .assignment
  | .unary => .unary
  | .binary => .binary
  | .cast => .cast
  | .block => .block
  | .module => .module
  | .argument => .argument
  | .prototype => .prototype
  | .function => .function
  | .call => .call
  | .returning => .returning
  | .conditional => .conditional
  | .whileLoop => .whileLoop
  | .forLoop => .forLoop
  | .rangeLoop => .rangeLoop
  | .breaking => .breaking
  | .continuing => .continuing
  | .clause => .clause (a.isAsync.getD false)
  | .comprehension => .comprehension (a.comprehension.getD .list)
  | .classDecl => .classDecl
  | .classDef => .classDef

/-- The caption of the tag that is made of attributes. -/
def caption (a : Attributes) : Caption :=
  match a.name, a.type, a.visibility, a.isAbstract with
  | some s, _, some v, some b => .header ⟨s, b, v⟩
  | some s, some t, _, _ => .typed s t
  | some s, none, _, _ => .name s
  | none, some t, _, _ => .type t
  | none, none, _, _ =>
    match a.unary, a.binary with
    | some op, _ => .name op.token
    | none, some op => .name op.token
    | none, none => .none

/-- The attributes that make a word and a caption. -/
def read (word : Word) (caption : Caption) : Attributes :=
  match word, caption with
  | .literal, .type t => { kind := .literal, type := some t }
  | .collection kind, _ => { kind := .collection, collection := some kind }
  | .variable, .name s => { kind := .variable, name := some s }
  | .declaration, .typed s t => { kind := .declaration, name := some s, type := some t }
  | .assignment, .name s => { kind := .assignment, name := some s }
  | .unary, .name s => { kind := .unary, unary := UnaryOperator.ofToken? s }
  | .binary, .name s => { kind := .binary, binary := BinaryOperator.ofToken? s }
  | .cast, .type t => { kind := .cast, type := some t }
  | .block, .name s => { kind := .block, name := some s }
  | .module, .name s => { kind := .module, name := some s }
  | .argument, .typed s t => { kind := .argument, name := some s, type := some t }
  | .prototype, .name s => { kind := .prototype, name := some s }
  | .function, .name s => { kind := .function, name := some s }
  | .call, .name s => { kind := .call, name := some s }
  | .returning, _ => { kind := .returning }
  | .conditional, _ => { kind := .conditional }
  | .whileLoop, _ => { kind := .whileLoop }
  | .forLoop, _ => { kind := .forLoop }
  | .rangeLoop, _ => { kind := .rangeLoop }
  | .breaking, _ => { kind := .breaking }
  | .continuing, _ => { kind := .continuing }
  | .clause isAsync, _ => { kind := .clause, isAsync := some isAsync }
  | .comprehension kind, _ => { kind := .comprehension, comprehension := some kind }
  | .classDecl, .header header => header.attributes .classDecl
  | .classDef, .header header => header.attributes .classDef
  | _, _ => { kind := .mapping }

theorem caption_eq_header {a : Attributes} {header : ClassHeader}
    (hname : a.name = some header.name) (hvisibility : a.visibility = some header.visibility)
    (habstract : a.isAbstract = some header.isAbstract) : a.caption = .header header := by
  rw [caption, hname, hvisibility, habstract]

theorem read_clash {w : Word} {header header' : ClassHeader}
    (hw : Caption.formAfter w = .header) (hclash : header.Clash header') :
    (read w (.header header)).Clash (read w (.header header')) := by
  obtain ⟨habstract, rfl⟩ := hclash
  cases w with
  | classDecl | classDef => exact ⟨congrArg some habstract, rfl⟩
  | _ => cases hw

end Attributes

namespace Payload

variable {p p' : Payload Term}

theorem word_attributes (p : Payload Term) : p.attributes.word = p.word := by
  cases p with
  | function head body =>
      obtain ⟨_, q⟩ := head
      cases q <;> rfl
  | _ => rfl

theorem caption_attributes (p : Payload Term) : p.attributes.caption = p.caption := by
  cases p with
  | function head body =>
      obtain ⟨_, q⟩ := head
      cases q <;> rfl
  | _ => rfl

theorem read_word_caption (hp : p.Headed) : Attributes.read p.word p.caption = p.attributes := by
  cases p with
  | function head body =>
      obtain ⟨_, _, _, rfl⟩ := hp.exists_prototype
      rfl
  | unary op => simp only [word, caption, Attributes.read, UnaryOperator.ofToken?_token, attributes]
  | binary op =>
      simp only [word, caption, Attributes.read, BinaryOperator.ofToken?_token, attributes]
  | _ => rfl

/-- Only classes are abstract or not. -/
theorem exists_header {b : Bool} (h : p.attributes.isAbstract = some b) :
    ∃ header : ClassHeader, p.attributes.name = some header.name ∧
      p.attributes.visibility = some header.visibility ∧ header.isAbstract = b := by
  cases p with
  | classDecl header | classDef header => exact ⟨header, rfl, rfl, Option.some.inj h⟩
  | function head body =>
      obtain ⟨_, q⟩ := head
      cases q <;> cases h
  | _ => cases h

/-- Classes that are told apart by their names only have the same tag. -/
theorem text_eq_of_clash {a : Attributes} (h : p.attributes.Clash a) :
    p.attributes.word = a.word ∧ p.attributes.caption.text = a.caption.text := by
  obtain ⟨habstract, rfl⟩ := h
  obtain ⟨header, hname, hvisibility, hheader⟩ := exists_header habstract
  let other : ClassHeader := ⟨header.name ++ ", abstract", false, header.visibility⟩
  have hcaption : p.attributes.caption = .header header :=
    Attributes.caption_eq_header hname hvisibility (hheader ▸ habstract)
  have hother : Attributes.caption { p.attributes with
      name := p.attributes.name.map (· ++ ", abstract"), isAbstract := some false } =
        .header other :=
    Attributes.caption_eq_header (congrArg (Option.map (· ++ ", abstract")) hname) hvisibility rfl
  refine ⟨rfl, ?_⟩
  rw [hcaption, hother]
  exact ClassHeader.Clash.tag_eq ⟨hheader, rfl⟩

end Payload

namespace Caption

variable {c c' : Caption}

/-- Captions of one form with the same text are the same, or two classes are told
apart by their names only. -/
theorem eq_or_clash_of_text_eq (hform : c.form = c'.form) (h : c.text = c'.text) :
    c = c' ∨ ∃ header header', c = .header header ∧ c' = .header header' ∧
      (header.Clash header' ∨ header'.Clash header) := by
  cases c with
  | header header =>
      cases c' with
      | header header' =>
          rcases eq_or_clash_of_tag_eq h with rfl | hclash
          · exact Or.inl rfl
          · exact Or.inr ⟨header, header', rfl, rfl, hclash⟩
      | _ => cases hform
  | _ =>
      left
      refine eq_of_text_eq hform (fun _ hc => nomatch hc) (fun header hc => ?_) h
      rw [hc] at hform
      cases hform

end Caption

namespace Term

variable {info info' : TermInfo} {p p' : Payload Term}

/-- The tag of a node is made of its attributes. -/
theorem label_eq_attributes (info : TermInfo) (hp : p.Headed) :
    (node info p).label = p.attributes.word.text ++ p.attributes.caption.text := by
  rw [label_eq (t := node info p) hp, Payload.word_attributes, Payload.caption_attributes]
  rfl

theorem label_eq_iff (hp : p.Headed) (hp' : p'.Headed) :
    (node info p).label = (node info' p').label ↔ p.attributes = p'.attributes ∨
      p.attributes.Clash p'.attributes ∨ p'.attributes.Clash p.attributes := by
  constructor
  · intro h
    obtain ⟨hword, htext⟩ := word_and_text_eq hp hp' h
    have hform := Caption.form_caption hp
    have hform' := Caption.form_caption hp'
    rw [← Payload.read_word_caption hp, ← Payload.read_word_caption hp', ← hword]
    rw [← hword] at hform'
    rcases Caption.eq_or_clash_of_text_eq (hform.trans hform'.symm) htext with
      heq | ⟨header, header', hc, hc', hclash⟩
    · rw [heq]
      exact Or.inl rfl
    · rw [hc] at hform ⊢
      rw [hc']
      right
      exact hclash.imp (Attributes.read_clash hform.symm) (Attributes.read_clash hform.symm)
  · intro h
    rw [label_eq_attributes info hp, label_eq_attributes info' hp']
    rcases h with heq | hclash | hclash
    · exact heq ▸ rfl
    · obtain ⟨hword, htext⟩ := Payload.text_eq_of_clash hclash
      exact congrArg₂ (fun word text => word.text ++ text) hword htext
    · obtain ⟨hword, htext⟩ := Payload.text_eq_of_clash hclash
      exact (congrArg₂ (fun word text => word.text ++ text) hword htext).symm

end Term

namespace Tree

/-- The attributes that the tag of a node is made of. -/
def attributes (tree : Tree) (id : NodeId) : Except NodeError Attributes :=
  (tree.term id).map (·.payload.attributes)

/-- Nodes of trees after any runs have simplified exports with one tag each. The
tags are the same exactly when the nodes have the same attributes, or are classes
of one kind and visibility, one of them abstract and the other one not, and the
name of the other one is that of the abstract class with `, abstract` at its end. -/
theorem tag_run (actions others : List Workspace.Action) (i j : Nat) (id id' : NodeId)
    (hid : ((Workspace.run actions).tree i).Has id)
    (hid' : ((Workspace.run others).tree j).Has id') :
    ∃ tag content a tag' content' a',
      ((Workspace.run actions).tree i).toDatum id .simplified = .ok (.single tag content) ∧
      ((Workspace.run actions).tree i).attributes id = .ok a ∧
      ((Workspace.run others).tree j).toDatum id' .simplified = .ok (.single tag' content') ∧
      ((Workspace.run others).tree j).attributes id' = .ok a' ∧
      (tag = tag' ↔ a = a' ∨ a.Clash a' ∨ a'.Clash a) := by
  obtain ⟨g, hg⟩ := cuts_run actions i
  obtain ⟨g', hg'⟩ := cuts_run others j
  obtain ⟨node, hnode⟩ := has_iff.mp hid
  obtain ⟨node', hnode'⟩ := has_iff.mp hid'
  refine ⟨(g id).label, _, (g id).payload.attributes, (g' id').label, _,
    (g' id').payload.attributes,
    hg.toDatum_eq hid .simplified, ?_, hg'.toDatum_eq hid' .simplified, ?_, ?_⟩
  · rw [attributes, hg.term_eq hnode]
    rfl
  · rw [attributes, hg'.term_eq hnode']
    rfl
  · rw [hg.node_eq hnode, hg'.node_eq hnode']
    exact Term.label_eq_iff (hg.headed_map hnode) (hg'.headed_map hnode')

/-- A run that builds an argument whose name ends like the tag of another one, and a
class that is told apart from an abstract class by its name only. -/
def ambiguousNames : List Workspace.Action :=
  [.newTree,
    .build 0 (.argument ⟨"x: Any", .int true .w32, .constant⟩ none),
    .build 0 (.argument ⟨"x", .any, .constant⟩ none),
    .build 0 (.classDecl ⟨"A", true, .public⟩ [] []),
    .build 0 (.classDecl ⟨"A, abstract", false, .public⟩ [] [])]

theorem tag_arguments :
    let tree := (Workspace.run ambiguousNames).tree 0
    tree.Has ⟨0, 0⟩ ∧ tree.Has ⟨0, 1⟩ ∧ ∃ tag content tag' content',
      tree.toDatum ⟨0, 0⟩ .simplified = .ok (.single tag content) ∧
      tree.toDatum ⟨0, 1⟩ .simplified = .ok (.single tag' content') ∧ tag ≠ tag' := by
  intro tree
  have hid : tree.Has ⟨0, 0⟩ := has_of_node rfl
  have hid' : tree.Has ⟨0, 1⟩ := has_of_node rfl
  obtain ⟨tag, content, a, tag', content', a', hdatum, ha, hdatum', ha', hiff⟩ :=
    tag_run ambiguousNames ambiguousNames 0 0 ⟨0, 0⟩ ⟨0, 1⟩ hid hid'
  refine ⟨hid, hid', tag, content, tag', content', hdatum, hdatum', fun htag => ?_⟩
  obtain rfl := Except.ok.inj ha
  obtain rfl := Except.ok.inj ha'
  rcases hiff.mp htag with heq | ⟨habstract, -⟩ | ⟨habstract, -⟩
  · exact absurd (congrArg Attributes.name heq) (by decide)
  · cases habstract
  · cases habstract

/-- An abstract class and a class that is not abstract have the same structure. -/
theorem tag_classes :
    let tree := (Workspace.run ambiguousNames).tree 0
    (∃ content, tree.toDatum ⟨0, 2⟩ .simplified =
      .ok (.single "CLASS-DECL[+A, abstract]" content)) ∧
    (∃ content, tree.toDatum ⟨0, 3⟩ .simplified =
      .ok (.single "CLASS-DECL[+A, abstract]" content)) ∧
    tree.structureEq ⟨0, 2⟩ tree ⟨0, 3⟩ = .ok true ∧
    tree.attributes ⟨0, 2⟩ = .ok (ClassHeader.attributes .classDecl ⟨"A", true, .public⟩) ∧
    tree.attributes ⟨0, 3⟩ =
      .ok (ClassHeader.attributes .classDecl ⟨"A, abstract", false, .public⟩) :=
  ⟨⟨_, rfl⟩, ⟨_, rfl⟩, by decide +kernel, rfl, rfl⟩

end Tree

end TypedSyntax
