import TypedSyntax.Proofs.Export.Subtree
import TypedSyntax.Proofs.Python.Imports
import TypedSyntax.Proofs.Python.Rendering
import TypedSyntax.Proofs.Python.Steady

/-!
# The header of a module

After every run, the import lines above a module's statements are those that
its subtree needs: temporal literals, abstract classes, and the types of the
annotations that are printed.
-/

namespace TypedSyntax

namespace Tree

open Relation

variable {tree : Tree} {id n : NodeId} {node : Node} {g : NodeId → Term}

/-- The target of a loop or clause. -/
def IsLoopTarget (tree : Tree) (n : NodeId) : Prop :=
  ∃ p payload, tree.payload p = .ok payload ∧ n ∈ payload.target?

/-- The types that are printed as annotations when type hints are on. -/
inductive Annotates (tree : Tree) (n : NodeId) : DataType → Prop
  | declaration {declared value} : tree.payload n = .ok (.declaration declared value) →
      ¬ tree.IsLoopTarget n → Annotates tree n declared.type
  | argument {parameter default} : tree.payload n = .ok (.argument parameter default) →
      Annotates tree n parameter.type
  | prototype {signature arguments} : tree.payload n = .ok (.prototype signature arguments) →
      Annotates tree n signature.returnType

def IsTemporalLiteral (tree : Tree) (n : NodeId) : Prop :=
  ∃ s type, tree.payload n = .ok (.literal (.temporal s) type)

/-- An abstract class, declared or defined. -/
inductive IsAbstractClass (tree : Tree) (n : NodeId) : Prop
  | declared {header bases decorators} :
      tree.payload n = .ok (.classDecl header bases decorators) → header.isAbstract = true →
      IsAbstractClass tree n
  | defined {header bases decorators attributes methods} :
      tree.payload n = .ok (.classDef header bases decorators attributes methods) →
      header.isAbstract = true → IsAbstractClass tree n

/-- The node uses a name that an import defines. -/
def Uses (tree : Tree) (hints : Bool) (need : Python.Need) (n : NodeId) : Prop :=
  ∃ p, tree.payload n = .ok p ∧ ¬ tree.IsLoopTarget n ∧ Python.Asks hints p need

/-- A node is below another if it is the same, or below one of its children. -/
theorem Linked.below_iff (ht : Linked tree) (hnode : tree.node id = .ok node) :
    ReflTransGen tree.ChildOf n id ↔
      n = id ∨ ∃ c ∈ node.payload.children, ReflTransGen tree.ChildOf n c := by
  constructor
  · intro hn
    rcases ReflTransGen.cases_tail hn with he | ⟨c, hn, hc⟩
    · exact .inl he.symm
    · obtain ⟨cs, hs, hmem⟩ := ht.childOf_iff_slot.mp hc
      obtain ⟨node', hnode', rfl⟩ := slots_iff.mp hs
      obtain rfl := Except.ok.inj (hnode.symm.trans hnode')
      exact .inr ⟨c, hmem, hn⟩
  · rintro (rfl | ⟨c, hc, hn⟩)
    · exact ReflTransGen.refl
    · exact hn.tail (ht.childOf_of_mem hnode hc)

/-- A loop target is the target of its parent. -/
theorem Linked.isLoopTarget_iff (ht : Linked tree) (hnode : tree.node id = .ok node) {c : NodeId}
    (hc : c ∈ node.payload.children) : tree.IsLoopTarget c ↔ c ∈ node.payload.target? := by
  constructor
  · rintro ⟨p, payload, hpayload, htarget⟩
    obtain ⟨above, habove, rfl⟩ := payload_eq_ok_iff.mp hpayload
    obtain rfl := rightUnique_childOf tree
      (ht.childOf_of_mem habove (Payload.mem_of_mem_target? htarget)) (ht.childOf_of_mem hnode hc)
    obtain rfl := Except.ok.inj (hnode.symm.trans habove)
    exact htarget
  · exact fun htarget => ⟨id, _, payload_eq_ok_iff.mpr ⟨node, hnode, rfl⟩, htarget⟩

/-- A printed child is no target of a loop. -/
theorem Linked.not_isLoopTarget (ht : Linked tree) (hnode : tree.node id = .ok node) {c : NodeId}
    (hc : c ∈ node.payload.printed) : ¬ tree.IsLoopTarget c := by
  rw [ht.isLoopTarget_iff hnode (Payload.mem_of_mem_printed hc)]
  intro htarget
  have hnodup : node.payload.children.Nodup := ht.nodup (slots_iff.mpr ⟨node, hnode, rfl⟩)
  rw [Payload.children_eq] at hnodup
  exact List.disjoint_of_nodup_append hnodup (Option.mem_toList.mpr htarget) hc

/-- Targets are variables or declarations without a value. -/
theorem Fits.target {p : Payload NodeId} (h : tree.Fits p) {c : NodeId} (hc : c ∈ p.target?) :
    (∃ name type, tree.payload c = .ok (.variable name type)) ∨
      ∃ declared, tree.payload c = .ok (.declaration declared none) := by
  have htarget : ∀ {element}, tree.IsTarget element c →
      (∃ name type, tree.payload c = .ok (.variable name type)) ∨
        ∃ declared, tree.payload c = .ok (.declaration declared none) := by
    intro element h
    cases h with
    | «variable» hp => exact .inl ⟨_, _, hp⟩
    | declaration hp => exact .inr ⟨_, hp⟩
  cases h with
  | forLoop h | clause h =>
      obtain ⟨type, element, -, -, h⟩ := h.elements
      exact htarget (Option.some.inj hc ▸ h)
  | rangeLoop hcounter => exact .inr ⟨_, Option.some.inj hc ▸ hcounter⟩
  | _ => cases hc

/-- Targets are variables or declarations. -/
theorem WellFormed.kind_of_isLoopTarget (hw : WellFormed tree) (h : tree.IsLoopTarget n)
    {p : Payload NodeId} (hp : tree.payload n = .ok p) :
    p.kind = .variable ∨ p.kind = .declaration := by
  obtain ⟨above, payload, hpayload, htarget⟩ := h
  rcases (hw above payload hpayload).target htarget with ⟨name, type, hn⟩ | ⟨declared, hn⟩
  · obtain rfl := Except.ok.inj (hp.symm.trans hn)
    exact .inl rfl
  · obtain rfl := Except.ok.inj (hp.symm.trans hn)
    exact .inr rfl

/-- A node uses an import for a temporal value, a printed annotation, or an
abstract class. -/
theorem WellFormed.uses_iff (hw : WellFormed tree) {hints : Bool} {need : Python.Need} :
    tree.Uses hints need n ↔
      (need = .datetime ∧ tree.IsTemporalLiteral n) ∨
      (hints = true ∧ ∃ type, tree.Annotates n type ∧ Python.HintNeeds type need) ∨
      (need = .abc ∧ tree.IsAbstractClass n) := by
  constructor
  · rintro ⟨p, hp, hnot, hasks⟩
    cases p with
    | literal value type =>
        cases value with
        | temporal s => exact .inl ⟨hasks, s, type, hp⟩
        | _ => cases hasks
    | declaration => exact .inr (.inl ⟨hasks.1, _, .declaration hp hnot, hasks.2⟩)
    | argument => exact .inr (.inl ⟨hasks.1, _, .argument hp, hasks.2⟩)
    | prototype => exact .inr (.inl ⟨hasks.1, _, .prototype hp, hasks.2⟩)
    | classDecl => exact .inr (.inr ⟨hasks.2, .declared hp hasks.1⟩)
    | classDef => exact .inr (.inr ⟨hasks.2, .defined hp hasks.1⟩)
    | _ => cases hasks
  · have hfixed : ∀ {p}, tree.payload n = .ok p → p.kind ≠ .variable → p.kind ≠ .declaration →
        ¬ tree.IsLoopTarget n := by
      intro p hp hvariable hdeclaration h
      exact (hw.kind_of_isLoopTarget h hp).elim hvariable hdeclaration
    rintro (⟨rfl, s, type, hp⟩ | ⟨hon, type, hannotates, hneeds⟩ | ⟨rfl, hclass⟩)
    · exact ⟨_, hp, hfixed hp nofun nofun, rfl⟩
    · cases hannotates with
      | declaration hp hnot => exact ⟨_, hp, hnot, hon, hneeds⟩
      | argument hp => exact ⟨_, hp, hfixed hp nofun nofun, hon, hneeds⟩
      | prototype hp => exact ⟨_, hp, hfixed hp nofun nofun, hon, hneeds⟩
    · cases hclass with
      | declared hp habstract => exact ⟨_, hp, hfixed hp nofun nofun, habstract, rfl⟩
      | defined hp habstract => exact ⟨_, hp, hfixed hp nofun nofun, habstract, rfl⟩

theorem Cuts.kind_eq (hg : tree.Cuts g) (hnode : tree.node id = .ok node) :
    (g id).kind = node.kind := by
  rw [hg.node_eq hnode]
  exact Payload.kind_map g node.payload

/-- Nothing below a loop target is printed but its name. -/
theorem Cuts.not_uses_target (hg : tree.Cuts g) (hnode : tree.node id = .ok node) {c : NodeId}
    (hc : c ∈ node.payload.target?) (hn : ReflTransGen tree.ChildOf n c) (hints : Bool)
    (need : Python.Need) : ¬ tree.Uses hints need n := by
  have hfits := hg.wellFormed id _ (payload_eq_ok_iff.mpr ⟨node, hnode, rfl⟩)
  have htarget : tree.IsLoopTarget c :=
    ⟨id, _, payload_eq_ok_iff.mpr ⟨node, hnode, rfl⟩, hc⟩
  have hleaf : ∀ {p}, tree.payload c = .ok p → p.children = [] → n = c := by
    intro p hp hnil
    obtain ⟨leaf, hleaf, rfl⟩ := payload_eq_ok_iff.mp hp
    rcases (hg.linked.below_iff hleaf).mp hn with rfl | ⟨d, hd, -⟩
    · rfl
    · rw [hnil] at hd
      cases hd
  have hne : n = c := by
    rcases hfits.target hc with ⟨name, type, hp⟩ | ⟨declared, hp⟩
    · exact hleaf hp rfl
    · exact hleaf hp rfl
  rintro ⟨p, -, hnot, -⟩
  exact hnot (hne ▸ htarget)

end Tree

namespace Python

variable {A : Type} {m : Writing A} {P : Need → Prop}

/-- What a text in progress notes of its own. -/
def Noted (m : Writing A) (need : Need) : Prop :=
  (m.run .none).2.has need = true

/-- What a text notes of its own is what it notes after anything else. -/
theorem Notes.noted_iff (h : Notes m P) (need : Need) : Noted m need ↔ P need := by
  rw [Noted, h]
  cases need <;> simp [Imports.has, Imports.none]

theorem Notes.noted (h : Notes m P) : Notes m (Noted m) :=
  h.of_iff fun need => (h.noted_iff need).symm

/-! ## What subtrees note -/

section Cuts

open Relation

variable {tree : Tree} {id : NodeId} {node : Node} {g : NodeId → Term} {options : PythonOptions}

/-- A node with the text of its term. -/
def partOf (g : NodeId → Term) (options : PythonOptions) (c : NodeId) : Part :=
  (g c, text options (g c))

/-- The text of a node is made of the texts of its children. -/
theorem text_cut (hg : tree.Cuts g) (hnode : tree.node id = .ok node) :
    text options (g id) = nodeText options
      ⟨id, node.tag, node.loc, node.comment, tree.isMethodHead node⟩
      (node.payload.map (partOf g options)) := by
  rw [hg.node_eq hnode, text_node, Payload.map_map]
  rfl

/-- The nodes below a node that is printed as a whole use what the node uses itself and
what the nodes below its printed children use. -/
theorem exists_uses_iff (hg : tree.Cuts g) (hnode : tree.node id = .ok node)
    (htarget : ¬ tree.IsLoopTarget id) {hints : Bool} {need : Need} :
    (∃ n, ReflTransGen tree.ChildOf n id ∧ tree.Uses hints need n) ↔
      Asks hints node.payload need ∨ ∃ c ∈ node.payload.printed,
        ∃ n, ReflTransGen tree.ChildOf n c ∧ tree.Uses hints need n := by
  have hpayload := Tree.payload_eq_ok_iff.mpr ⟨node, hnode, rfl⟩
  constructor
  · rintro ⟨n, hn, huses⟩
    rcases (hg.linked.below_iff hnode).mp hn with rfl | ⟨c, hc, hn⟩
    · obtain ⟨p, hp, -, hasks⟩ := huses
      obtain rfl := Except.ok.inj (hpayload.symm.trans hp)
      exact .inl hasks
    · rw [Payload.children_eq] at hc
      rcases List.mem_append.mp hc with hc | hc
      · exact absurd huses (hg.not_uses_target hnode (Option.mem_toList.mp hc) hn hints need)
      · exact .inr ⟨c, hc, n, hn, huses⟩
  · rintro (hasks | ⟨c, hc, n, hn, huses⟩)
    · exact ⟨id, ReflTransGen.refl, _, hpayload, htarget, hasks⟩
    · have hchild := hg.linked.childOf_of_mem hnode (Payload.mem_of_mem_printed hc)
      exact ⟨n, hn.tail hchild, huses⟩

/-- The parts of nodes note what the texts of the nodes note. -/
theorem exists_noted_iff {ids : List NodeId} {P : NodeId → Need → Prop} {need : Need}
    (h : ∀ c ∈ ids, Notes (text options (g c)) (P c)) :
    (∃ part ∈ ids.map (partOf g options), Noted part.2 need) ↔ ∃ c ∈ ids, P c need := by
  simp only [List.mem_map, exists_exists_and_eq_and]
  apply exists_congr
  intro c
  apply and_congr_right
  intro hc
  exact (h c hc).noted_iff need

/-- The text of a node that is printed as a whole notes what the nodes below
use. -/
theorem notes_text (hg : tree.Cuts g) (hid : tree.Has id) (hmodule : ¬ tree.HasKind .module id)
    (htarget : ¬ tree.IsLoopTarget id) :
    Notes (text options (g id)) fun need =>
      ∃ n, ReflTransGen tree.ChildOf n id ∧ tree.Uses options.typeHints need n := by
  revert hmodule htarget
  -- From the leaves up. A target has no hypothesis: its text is a name, whatever it declares.
  refine hg.linked.induction (P := fun id => ¬ tree.HasKind .module id → ¬ tree.IsLoopTarget id →
    Notes (text options (g id)) fun need =>
      ∃ n, ReflTransGen tree.ChildOf n id ∧ tree.Uses options.typeHints need n) ?_ hid
  intro id hid ih hmodule htarget
  obtain ⟨node, hnode⟩ := Tree.has_iff.mp hid
  have hpayload := Tree.payload_eq_ok_iff.mpr ⟨node, hnode, rfl⟩
  have hfits := hg.wellFormed id _ hpayload
  have hchild : ∀ c ∈ node.payload.printed, Notes (text options (g c)) fun need =>
      ∃ n, ReflTransGen tree.ChildOf n c ∧ tree.Uses options.typeHints need n := by
    intro c hc
    have hmem := Payload.mem_of_mem_printed hc
    exact ih c (hg.linked.childOf_of_mem hnode hmem) (hfits.not_module c hmem)
      (hg.linked.not_isLoopTarget hnode hc)
  rw [text_cut hg hnode]
  refine (notes_nodeText (R := fun part => Noted part.2) _ ?_ ⟨?_, ?_⟩).of_iff ?_
  · rw [Payload.kind_map]
    exact fun hkind => hmodule (hkind ▸ Tree.hasKind_of_payload hpayload)
  · intro part hpart
    rw [Payload.printed_map] at hpart
    obtain ⟨c, hc, rfl⟩ := List.mem_map.mp hpart
    exact (hchild c hc).noted
  · intro part hpart
    rw [Payload.target?_map] at hpart
    obtain ⟨c, hc, rfl⟩ := Option.map_eq_some_iff.mp hpart
    rcases hfits.target hc with ⟨name, type, hp⟩ | ⟨declared, hp⟩
    all_goals
      obtain ⟨⟨_, _, _, _, p⟩, hbound, rfl⟩ := Tree.payload_eq_ok_iff.mp hp
      rw [partOf, hg.node_eq hbound]
      rfl
  · intro need
    rw [exists_uses_iff hg hnode htarget, Gathers, asks_map, Payload.printed_map,
      exists_noted_iff hchild]

end Cuts

/-! ## Modules -/

/-- The text of a module with some import lines and a body: a blank line stands
between them, and a line feed at the end. -/
def page (header : List String) (body : String) : String :=
  let out :=
    if header.isEmpty then body
    else if body.isEmpty then joinLines header
    else joinLines header ++ "\n\n" ++ body
  if out.isEmpty then "" else out ++ "\n"

/-- The text of a statement in a block or module, below its comment. -/
def IsStatementText (writer : Writer) (tree : Tree) (c : NodeId) (s : String) : Prop :=
  ∃ node out, tree.node c = .ok node ∧ (writer.render tree c).1 = .ok out ∧
    s = commentLines node.comment ++ out

open Relation in
/-- The import lines are those that the subtree below a node needs. -/
structure Exact (tree : Tree) (hints : Bool) (id : NodeId) (header : List String) : Prop where
  sublist : header.Sublist ["import datetime", "from abc import ABC", "from typing import Any"]
  datetime_iff : "import datetime" ∈ header ↔
    (∃ n, ReflTransGen tree.ChildOf n id ∧ tree.IsTemporalLiteral n) ∨
      (hints = true ∧ ∃ n type s, ReflTransGen tree.ChildOf n id ∧ tree.Annotates n type ∧
        type.Mentions s ∧ s.isTemporal = true)
  abc_iff : "from abc import ABC" ∈ header ↔
    ∃ n, ReflTransGen tree.ChildOf n id ∧ tree.IsAbstractClass n
  any_iff : "from typing import Any" ∈ header ↔
    hints = true ∧ ∃ n type, ReflTransGen tree.ChildOf n id ∧ tree.Annotates n type ∧
      type.Mentions .any

/-- The words of temporal types are those that need the module of dates. -/
theorem wordNeed?_eq_datetime_iff {s : DataType} :
    wordNeed? s = some .datetime ↔ s.isTemporal = true := by
  cases s <;> simp [wordNeed?, DataType.isTemporal]

theorem wordNeed?_eq_any_iff {s : DataType} : wordNeed? s = some .any ↔ s = .any := by
  cases s <;> simp [wordNeed?]

theorem wordNeed?_ne_abc (s : DataType) : wordNeed? s ≠ some .abc := by
  cases s <;> simp [wordNeed?]

/-- Import lines come in one order, and each at most once. -/
theorem Imports.lines_sublist (imports : Imports) :
    imports.lines.Sublist ["import datetime", "from abc import ABC", "from typing import Any"] := by
  obtain ⟨datetime, abc, any⟩ := imports
  revert datetime abc any
  decide

def Need.line : Need → String
  | .datetime => "import datetime"
  | .abc => "from abc import ABC"
  | .any => "from typing import Any"

/-- The line of a need is printed exactly when the need was noted. -/
theorem Imports.line_mem_lines_iff (imports : Imports) (need : Need) :
    need.line ∈ imports.lines ↔ imports.has need = true := by
  obtain ⟨datetime, abc, any⟩ := imports
  cases need <;> revert datetime abc any <;> decide

open Relation in
/-- Imports that the uses below a node ask for make an exact header. -/
theorem exact_lines {tree : Tree} (hw : tree.WellFormed) {hints : Bool} {id : NodeId}
    {imports : Imports}
    (h : ∀ need, imports.has need = true ↔
      ∃ n, ReflTransGen tree.ChildOf n id ∧ tree.Uses hints need n) :
    Exact tree hints id imports.lines where
  sublist := imports.lines_sublist
  datetime_iff := by
    rw [show "import datetime" = Need.line .datetime from rfl, imports.line_mem_lines_iff, h]
    simp only [hw.uses_iff, HintNeeds, wordNeed?_eq_datetime_iff]
    constructor
    · rintro ⟨n, hn, ⟨-, hliteral⟩ | ⟨hon, type, htype, s, hs⟩ | ⟨hne, -⟩⟩
      · exact .inl ⟨n, hn, hliteral⟩
      · exact .inr ⟨hon, n, type, s, hn, htype, hs⟩
      · cases hne
    · rintro (⟨n, hn, hliteral⟩ | ⟨hon, n, type, s, hn, htype, hs⟩)
      · exact ⟨n, hn, .inl ⟨trivial, hliteral⟩⟩
      · exact ⟨n, hn, .inr (.inl ⟨hon, type, htype, s, hs⟩)⟩
  abc_iff := by
    rw [show "from abc import ABC" = Need.line .abc from rfl, imports.line_mem_lines_iff, h]
    simp [hw.uses_iff, HintNeeds, wordNeed?_ne_abc]
  any_iff := by
    rw [show "from typing import Any" = Need.line .any from rfl, imports.line_mem_lines_iff, h]
    simp only [hw.uses_iff, HintNeeds, wordNeed?_eq_any_iff]
    constructor
    · rintro ⟨n, hn, ⟨hne, -⟩ | ⟨hon, type, htype, s, hs, rfl⟩ | ⟨hne, -⟩⟩
      · cases hne
      · exact ⟨hon, n, type, hn, htype, hs⟩
      · cases hne
    · rintro ⟨hon, n, type, hn, htype, hs⟩
      exact ⟨n, hn, .inr (.inl ⟨hon, type, htype, _, hs, rfl⟩)⟩

theorem Steady.yields {A : Type} {m : Writing A} (h : Steady m) (imports : Imports) :
    Yields m (m.run imports).1 :=
  fun imports' => h imports' imports

/-- The texts of statements, each below its comment. -/
theorem exists_statements {tree : Tree} {g : NodeId → Term} (hg : tree.Cuts g) (writer : Writer)
    {nodes : List NodeId} (hnodes : ∀ c ∈ nodes, tree.IsStatement c) :
    ∃ statements, List.Forall₂ (IsStatementText writer tree) nodes statements ∧
      Yields ((nodes.map (partOf g writer.options)).mapM statement) statements := by
  let out := fun c => ((text writer.options (g c)).run writer.imports).1
  refine ⟨nodes.map fun c => commentLines (g c).comment ++ out c, ?_, ?_⟩
  · rw [List.forall₂_map_right_iff, List.forall₂_same]
    intro c hc
    obtain ⟨kind, hkind, -⟩ := hnodes c hc
    obtain ⟨node, hnode, -⟩ := map_eq_ok_iff.mp hkind
    have hmodule : (g c).kind ≠ .module := by
      rw [hg.kind_eq hnode]
      exact fun he => (hnodes c hc).not_module (map_eq_ok_iff.mpr ⟨node, hnode, he⟩)
    refine ⟨node, out c, hnode, ?_, by rw [hg.node_eq hnode]; rfl⟩
    rw [Writer.render_fst (hg.term_eq hnode)]
    simp [hmodule, out]
  · apply yields_mapM
    rw [List.forall₂_map_left_iff, List.forall₂_map_right_iff, List.forall₂_same]
    exact fun c _ => yields_statement ((steady_text writer.options (g c)).yields writer.imports)

section Modules

open Relation

variable {tree : Tree} {id : NodeId} {g : NodeId → Term} {name : String} {nodes : List NodeId}

/-- The statements of a module note what the nodes below it use. -/
theorem noted_module (hg : tree.Cuts g) (hid : tree.payload id = .ok (.module name nodes))
    (options : PythonOptions) (need : Need) :
    Noted ((nodes.map (partOf g options)).mapM statement) need ↔
      ∃ n, ReflTransGen tree.ChildOf n id ∧ tree.Uses options.typeHints need n := by
  obtain ⟨node, hnode, hpayload⟩ := Tree.payload_eq_ok_iff.mp hid
  have hchildren : node.payload.children = nodes := by rw [hpayload, Payload.children]
  have hprinted : node.payload.printed = nodes := by rw [hpayload]; rfl
  have hfits := hg.wellFormed id _ hid
  have hchild : ∀ c ∈ nodes, Notes (text options (g c)) fun need =>
      ∃ n, ReflTransGen tree.ChildOf n c ∧ tree.Uses options.typeHints need n := by
    intro c hc
    exact notes_text hg (hg.linked.childOf_of_mem hnode (hchildren ▸ hc)).has
      (hfits.not_module c hc) (hg.linked.not_isLoopTarget hnode (hprinted ▸ hc))
  have hparts : ∀ part ∈ nodes.map (partOf g options), Notes part.2 (Noted part.2) := by
    rw [List.forall_mem_map]
    exact fun c hc => (hchild c hc).noted
  have htarget : ¬ tree.IsLoopTarget id := by
    intro htarget
    rcases hg.wellFormed.kind_of_isLoopTarget htarget hid with hkind | hkind
    all_goals cases hkind
  have hasks : ¬ Asks options.typeHints node.payload need := by
    rw [hpayload]
    exact not_false
  rw [(notes_statements (R := fun part => Noted part.2) hparts).noted_iff need,
    exists_noted_iff hchild, exists_uses_iff hg hnode htarget, hprinted]
  exact (or_iff_right hasks).symm

/-- The text of a module from those of its statements, written with no imports
noted before. -/
theorem render_module (hg : tree.Cuts g) (hid : tree.payload id = .ok (.module name nodes))
    (writer : Writer) {statements : List String}
    (h : Yields ((nodes.map (partOf g writer.options)).mapM statement) statements) :
    (writer.render tree id).1 = .ok (page
      (((nodes.map (partOf g writer.options)).mapM statement).run .none).2.lines
      (joinLines statements)) := by
  obtain ⟨node, hnode, hpayload⟩ := Tree.payload_eq_ok_iff.mp hid
  have hkind : (g id).kind = .module := by
    rw [hg.kind_eq hnode, Node.kind, hpayload]
    rfl
  have htext : ((text writer.options (g id)).run writer.imports).1 = moduleText
      (((nodes.map (partOf g writer.options)).mapM statement).run .none).2
      (joinLines (((nodes.map (partOf g writer.options)).mapM statement).run .none).1) := by
    rw [text_cut hg hnode, hpayload]
    rfl
  have hclosed : ∀ out : String, (if decide (Kind.module = .module) && !out.isEmpty then
      out ++ "\n" else out) = if out.isEmpty then "" else out ++ "\n" := by
    intro out
    cases hempty : out.isEmpty with
    | true =>
        rw [String.isEmpty_iff.mp hempty]
        rfl
    | false => rfl
  rw [Writer.render_fst (hg.term_eq hnode), hkind, htext, h Imports.none]
  exact congrArg Except.ok (hclosed _)

end Modules

/-- After every run, the text of a module is the texts of its statements below
the import lines that its subtree needs, whatever the writer rendered before. -/
theorem header_run (actions : List Workspace.Action) (i : Nat) (id : NodeId) (name : String)
    (nodes : List NodeId) (writer : Writer)
    (hid : ((Workspace.run actions).tree i).payload id = .ok (.module name nodes)) :
    ∃ header statements,
      (writer.render ((Workspace.run actions).tree i) id).1 =
        .ok (page header (joinLines statements)) ∧
      List.Forall₂ (IsStatementText writer ((Workspace.run actions).tree i)) nodes statements ∧
      Exact ((Workspace.run actions).tree i) writer.options.typeHints id header := by
  obtain ⟨g, hg⟩ := Tree.cuts_run actions i
  have hnodes : ∀ c ∈ nodes, ((Workspace.run actions).tree i).IsStatement c := by
    cases hg.wellFormed id _ hid with
    | module hnodes => exact hnodes
  obtain ⟨statements, htexts, hyields⟩ := exists_statements hg writer hnodes
  exact ⟨_, statements, render_module hg hid writer hyields, htexts,
    exact_lines hg.wellFormed (noted_module hg hid writer.options)⟩

/-- A run that builds a loop over days, whose declared target is printed without
its type, and a declaration. -/
def loopOverDays : List Workspace.Action :=
  [.newTree,
    .build 0 (.declaration ⟨"day", .date, .mutable, .public, .local⟩ none),
    .build 0 (.variable "days" (.list .date)),
    .build 0 (.block "body" []),
    .build 0 (.forLoop ⟨0, 0⟩ ⟨0, 1⟩ [] ⟨0, 2⟩),
    .build 0 (.declaration ⟨"found", .list .any, .mutable, .public, .local⟩ none),
    .build 0 (.module "main" [⟨0, 3⟩, ⟨0, 4⟩])]

/-- The declared target of a loop over days is printed without its type, and needs no import. -/
theorem header_loopOverDays :
    let tree := (Workspace.run loopOverDays).tree 0
    let writer := Writer.new .default
    tree.payload ⟨0, 5⟩ = .ok (.module "main" [⟨0, 3⟩, ⟨0, 4⟩]) ∧
      (writer.render tree ⟨0, 5⟩).1 =
        .ok "from typing import Any\n\nfor day in days:\n    pass\nfound: list[Any]\n" ∧
      ∃ header statements,
        (writer.render tree ⟨0, 5⟩).1 = .ok (page header (joinLines statements)) ∧
        List.Forall₂ (IsStatementText writer tree) [⟨0, 3⟩, ⟨0, 4⟩] statements ∧
        Exact tree writer.options.typeHints ⟨0, 5⟩ header :=
  ⟨rfl, rfl, header_run loopOverDays 0 ⟨0, 5⟩ "main" [⟨0, 3⟩, ⟨0, 4⟩] (Writer.new .default) rfl⟩

end Python

end TypedSyntax
