import TypedSyntax.Proofs.Python.Header
import TypedSyntax.Proofs.Python.Outline

/-!
# The layout of a rendering

After every run, the renderings of a node at all widths of the indentation are
one list of lines with depths. The lines of a node are put together from those
of its children by the rule of its kind: a body stands one deeper than its
header, and a block among other statements at their depth.
-/

namespace TypedSyntax

theorem Payload.exists_module {α : Type} {p : Payload α} (h : p.kind = .module) :
    ∃ name nodes, p = .module name nodes := by
  cases p with
  | module name nodes => exact ⟨name, nodes, rfl⟩
  | _ => cases h

namespace Tree

variable {tree : Tree} {id : NodeId} {node : Node} {g : NodeId → Term} {strict : Prop}

/-- A node that holds no block. -/
def IsInline (tree : Tree) (id : NodeId) : Prop :=
  ∃ kind, tree.HasKind kind id ∧ Python.isInline kind = true

theorem HasKind.isInline {kind : Kind} (h : tree.HasKind kind id)
    (hkind : Python.isInline kind = true) : tree.IsInline id :=
  ⟨kind, h, hkind⟩

/-- What has a type is an expression, and holds no block. -/
theorem HasType.isInline {type : DataType} (h : tree.HasType id type) : tree.IsInline id := by
  obtain ⟨node, hnode, htype⟩ := map_eq_ok_iff.mp h
  refine ⟨node.payload.kind, map_eq_ok_iff.mpr ⟨node, hnode, rfl⟩, ?_⟩
  cases hp : node.payload <;> rw [hp] at htype <;> first | rfl | cases htype

theorem isInline_of_types {ids : List NodeId} {types : List DataType}
    (h : List.Forall₂ tree.HasType ids types) : ∀ c ∈ ids, tree.IsInline c := by
  intro c hc
  obtain ⟨type, htype⟩ := isExpression_of_types h c hc
  exact htype.isInline

theorem IsCondition.isInline (h : tree.IsCondition id) : tree.IsInline id := by
  obtain ⟨type, htype, -⟩ := h
  exact htype.isInline

theorem IsExpression.isInline (h : tree.IsExpression id) : tree.IsInline id := by
  obtain ⟨type, htype⟩ := h
  exact htype.isInline

theorem Suits.isInline {declared : DataType} (h : tree.Suits declared id) : tree.IsInline id := by
  obtain ⟨type, htype, -⟩ := h
  exact htype.isInline

theorem IsBound.isInline {declared : DataType} (h : tree.IsBound declared id) :
    tree.IsInline id := by
  obtain ⟨type, htype, -⟩ := h
  exact htype.isInline

/-- Targets hold no block. -/
theorem Fits.isInline_target {p : Payload NodeId} (h : tree.Fits p) {c : NodeId}
    (hc : c ∈ p.target?) : tree.IsInline c := by
  rcases h.target hc with ⟨name, type, hp⟩ | ⟨declared, hp⟩
  · exact (hasKind_of_payload hp).isInline rfl
  · exact (hasKind_of_payload hp).isInline rfl

theorem IsIteration.isInline {target iterable : NodeId} {conditions : List NodeId}
    (h : tree.IsIteration target iterable conditions) :
    ∀ c ∈ iterable :: conditions, tree.IsInline c := by
  obtain ⟨type, element, htype, -, -⟩ := h.elements
  exact List.forall_mem_cons.mpr ⟨htype.isInline, fun c hc => (h.conditions c hc).isInline⟩

/-- The children of a node without a block hold none. -/
theorem Fits.isInline_children {p : Payload NodeId} (h : tree.Fits p)
    (hp : Python.isInline p.kind = true) : ∀ c ∈ p.children, tree.IsInline c := by
  have htarget : ∀ c ∈ p.target?, tree.IsInline c := fun c hc => h.isInline_target hc
  cases h with
  | literal | «variable» | breaking | continuing => exact List.forall_mem_nil _
  | block | module | function | conditional | whileLoop | forLoop | rangeLoop | classDecl
  | classDef => cases hp
  | collection helements => exact isInline_of_types helements
  | @mapping entries _ _ _ hkeys hvalues =>
    intro c hc
    obtain ⟨entry, hentry, hc⟩ := List.mem_flatMap.mp hc
    rcases List.mem_pair.mp hc with rfl | rfl
    · exact isInline_of_types hkeys _ (List.mem_map_of_mem hentry)
    · exact isInline_of_types hvalues _ (List.mem_map_of_mem hentry)
  | declaration hvalue | argument hvalue =>
    exact fun c hc => (hvalue c (Option.mem_toList.mp hc)).isInline
  | assignment hvalue | cast hvalue => exact List.forall_mem_singleton.mpr hvalue.isInline
  | unary hoperand => exact List.forall_mem_singleton.mpr hoperand.isInline
  | binary hlhs hrhs =>
    exact List.forall_mem_cons.mpr
      ⟨hlhs.isInline, List.forall_mem_singleton.mpr hrhs.isInline⟩
  | prototype harguments => exact fun c hc => (harguments c hc).isInline rfl
  | call harguments => exact fun c hc => (harguments c hc).isInline
  | returning hvalue => exact fun c hc => (hvalue c (Option.mem_toList.mp hc)).isInline
  | clause h =>
    exact List.forall_mem_cons.mpr ⟨htarget _ rfl, h.isInline⟩
  | comprehension _ hgenerators helement =>
    exact List.forall_mem_cons.mpr ⟨helement.isInline, fun c hc => (hgenerators c hc).isInline rfl⟩

/-- The child is the body of a node, or a block of a conditional. -/
inductive IsBody (c : NodeId) : Payload NodeId → Prop
  | function {head} : IsBody c (.function head c)
  | whileLoop {condition} : IsBody c (.whileLoop condition c)
  | forLoop {target iterable conditions} : IsBody c (.forLoop target iterable conditions c)
  | rangeLoop {counter start stop step} : IsBody c (.rangeLoop counter start stop step c)
  | conditional {condition consequent alternative} : c ∈ consequent :: Option.toList alternative →
      IsBody c (.conditional condition consequent alternative)

/-- The only child that may hold blocks is the body. -/
theorem eq_of_not_isInline {heads : List NodeId} {body c : NodeId}
    (hheads : ∀ d ∈ heads, tree.IsInline d) (hc : c ∈ heads ++ [body])
    (hinline : ¬ tree.IsInline c) : c = body := by
  rcases List.mem_append.mp hc with hc | hc
  · exact absurd (hheads c hc) hinline
  · exact List.mem_singleton.mp hc

/-- A child that may hold blocks is a statement in a list, or a body. -/
theorem Fits.isBody {p : Payload NodeId} (h : tree.Fits p) {c : NodeId} (hc : c ∈ p.children)
    (hlisted : c ∉ p.listed) (hinline : ¬ tree.IsInline c) : IsBody c p := by
  have hfits := h
  cases hfits with
  | block | module => exact absurd hc hlisted
  | classDecl hexpressions => exact absurd (hexpressions c hc).isInline hinline
  | classDef hexpressions =>
    rw [Payload.children, List.append_assoc] at hc
    rcases List.mem_append.mp hc with hc | hc
    · exact absurd (hexpressions c hc).isInline hinline
    · exact absurd hc hlisted
  | @function head body hhead =>
    have hheads : ∀ d ∈ [head], tree.IsInline d :=
      List.forall_mem_singleton.mpr (hhead.isInline rfl)
    obtain rfl := eq_of_not_isInline hheads hc hinline
    exact .function
  | @whileLoop condition body hcondition =>
    have hheads : ∀ d ∈ [condition], tree.IsInline d :=
      List.forall_mem_singleton.mpr hcondition.isInline
    obtain rfl := eq_of_not_isInline hheads hc hinline
    exact .whileLoop
  | @forLoop target iterable conditions body hiteration =>
    have hheads : ∀ d ∈ target :: iterable :: conditions, tree.IsInline d :=
      List.forall_mem_cons.mpr ⟨h.isInline_target rfl, hiteration.isInline⟩
    obtain rfl := eq_of_not_isInline hheads hc hinline
    exact .forLoop
  | @rangeLoop counter start stop step body _ _ _ hbounds =>
    have hheads : ∀ d ∈ counter :: start :: stop :: step.toList, tree.IsInline d :=
      List.forall_mem_cons.mpr ⟨h.isInline_target rfl, fun d hd => (hbounds d hd).isInline⟩
    obtain rfl := eq_of_not_isInline hheads hc hinline
    exact .rangeLoop
  | conditional hcondition =>
    refine .conditional ((List.mem_cons.mp hc).resolve_left ?_)
    rintro rfl
    exact hinline hcondition.isInline
  | _ => exact absurd (h.isInline_children rfl c hc) hinline

/-- The names in a tree are tidy. In the strict sense its comments have no
carriage return. -/
structure Legible (strict : Prop) (tree : Tree) : Prop where
  names : ∀ {id node}, tree.node id = .ok node →
    ∀ name ∈ Python.ownName? node.payload, Python.Tidy strict name
  comments : ∀ {id node}, tree.node id = .ok node → strict → '\r' ∉ node.comment.toList

theorem mem_nodes (hnode : tree.node id = .ok node) : node ∈ tree.nodes := by
  obtain ⟨-, hget⟩ := node_eq_ok_iff.mp hnode
  exact Array.mem_of_getElem? hget

theorem Cuts.comment_eq (hg : tree.Cuts g) (hnode : tree.node id = .ok node) :
    (g id).comment = node.comment := by
  rw [hg.node_eq hnode]
  rfl

/-- In the strict sense the comment of a term has no carriage return. -/
theorem Legible.comment (h : Legible strict tree) (hg : tree.Cuts g) (hid : tree.Has id)
    (hstrict : strict) : '\r' ∉ (g id).comment.toList := by
  obtain ⟨node, hnode⟩ := has_iff.mp hid
  rw [hg.comment_eq hnode]
  exact h.comments hnode hstrict

/-- The target of a loop or clause has a name. -/
theorem Cuts.boundName_isSome (hg : tree.Cuts g) {p : Payload NodeId} (hfits : tree.Fits p)
    {c : NodeId} (hc : c ∈ p.target?) : (Python.boundName? (g c)).isSome = true := by
  rcases hfits.target hc with ⟨name, type, hp⟩ | ⟨declared, hp⟩
  all_goals
    obtain ⟨⟨_, _, _, _, p⟩, hbound, rfl⟩ := payload_eq_ok_iff.mp hp
    rw [hg.node_eq hbound]
    rfl

/-- The term of a node that holds no block is written on one line. -/
theorem Cuts.inline (hg : tree.Cuts g) (hlegible : Legible strict tree) (hid : tree.IsInline id) :
    Python.Inline strict (g id) := by
  have hhas : tree.Has id := by
    obtain ⟨kind, hkind, -⟩ := hid
    exact hkind.has
  revert hid
  refine hg.linked.induction (P := fun id => tree.IsInline id → Python.Inline strict (g id)) ?_ hhas
  intro id hhas ih hid
  obtain ⟨node, hnode⟩ := has_iff.mp hhas
  have hfits := hg.wellFormed id _ (payload_eq_ok_iff.mpr ⟨node, hnode, rfl⟩)
  have hkind : Python.isInline node.payload.kind = true := by
    obtain ⟨kind, hkind, hinline⟩ := hid
    obtain rfl := Except.ok.inj ((map_eq_ok_iff.mpr ⟨node, hnode, rfl⟩).symm.trans hkind)
    exact hinline
  rw [hg.node_eq hnode]
  constructor
  · rwa [Payload.kind_map]
  · rw [Python.ownName?_map]
    exact hlegible.names hnode
  · rw [Payload.target?_map]
    intro t ht
    obtain ⟨c, hc, rfl⟩ := Option.map_eq_some_iff.mp ht
    exact hg.boundName_isSome hfits hc
  · rw [Payload.children_map, List.forall_mem_map]
    exact fun c hc => ih c (hg.linked.childOf_of_mem hnode hc) (hfits.isInline_children hkind c hc)

/-- Every node but a module can be printed line by line. -/
theorem Cuts.printable (hg : tree.Cuts g) (hlegible : Legible strict tree) (hid : tree.Has id)
    (hmodule : ¬ tree.HasKind .module id) : Python.Printable strict (g id) := by
  revert hmodule
  refine hg.linked.induction
    (P := fun id => ¬ tree.HasKind .module id → Python.Printable strict (g id)) ?_ hid
  intro id hid ih hmodule
  obtain ⟨node, hnode⟩ := has_iff.mp hid
  have hpayload := payload_eq_ok_iff.mpr ⟨node, hnode, rfl⟩
  have hfits := hg.wellFormed id _ hpayload
  have hhas : ∀ c ∈ node.payload.children, tree.Has c :=
    fun c hc => (hg.linked.childOf_of_mem hnode hc).has
  have hchild : ∀ c ∈ node.payload.children, Python.Printable strict (g c) := fun c hc =>
    ih c (hg.linked.childOf_of_mem hnode hc) (hfits.not_module c hc)
  have hnames := hlegible.names hnode
  have htarget : ∀ {c}, c ∈ node.payload.target? → (Python.boundName? (g c)).isSome = true :=
    hg.boundName_isSome hfits
  have hslot : ∀ {c}, c ∈ node.payload.target? → tree.IsInline c := hfits.isInline_target
  -- What holds no block has been dealt with whole; below, each kind has its own slots.
  by_cases hinline : Python.isInline node.payload.kind = true
  · exact .inline (hg.inline hlegible ((hasKind_of_payload hpayload).isInline hinline))
  rw [hg.node_eq hnode]
  generalize node.payload = p at hfits hchild hnames htarget hslot hinline hhas hpayload
  cases hfits with
  | block =>
    exact .block (List.forall_mem_map.mpr hchild)
      (List.forall_mem_map.mpr fun c hc => hlegible.comment hg (hhas c hc))
  | module => exact absurd (hasKind_of_payload hpayload) hmodule
  | function hhead hbody =>
    exact .function (hg.inline hlegible (hhead.isInline rfl))
      (hchild _ (by simp [Payload.children]))
  | conditional hcondition _ halternative =>
    refine .conditional (hg.inline hlegible hcondition.isInline)
      (hchild _ (by simp [Payload.children])) ?_
    intro b hb
    obtain ⟨c, hc, rfl⟩ := Option.map_eq_some_iff.mp hb
    exact hchild c (by simp [Payload.children, hc])
  | whileLoop hcondition =>
    exact .whileLoop (hg.inline hlegible hcondition.isInline)
      (hchild _ (by simp [Payload.children]))
  | forLoop h =>
    have hparts := fun c hc => hg.inline hlegible (h.isInline c hc)
    refine .forLoop (hg.inline hlegible (hslot rfl)) (htarget rfl) (hparts _ List.mem_cons_self)
      ?_ (hchild _ (by simp [Payload.children]))
    exact List.forall_mem_map.mpr fun c hc => hparts c (List.mem_cons_of_mem _ hc)
  | @rangeLoop counter start stop step body _ _ _ hbounds =>
    refine .rangeLoop (hg.inline hlegible (hslot rfl)) (htarget rfl) ?_
      (hchild _ (by simp [Payload.children]))
    rw [Option.toList_map, ← List.map_cons, ← List.map_cons, List.forall_mem_map]
    exact fun c hc => hg.inline hlegible (hbounds c hc).isInline
  | classDecl h =>
    refine .classDecl (hnames _ rfl) ?_
    rw [← List.map_append, List.forall_mem_map]
    exact fun c hc => hg.inline hlegible (h c hc).isInline
  | @classDef header bases decorators attributes methods h =>
    have hmember : ∀ {c}, c ∈ attributes ++ methods →
        c ∈ bases ++ decorators ++ attributes ++ methods := by
      intro c hc
      rw [List.append_assoc _ attributes]
      exact List.mem_append_right _ hc
    refine .classDef (hnames _ rfl) ?_ ?_ ?_
    · rw [← List.map_append, List.forall_mem_map]
      exact fun c hc => hg.inline hlegible (h c hc).isInline
    · rw [← List.map_append, List.forall_mem_map]
      exact fun c hc => hchild c (hmember hc)
    · rw [← List.map_append, List.forall_mem_map]
      exact fun c hc => hlegible.comment hg (hhas c (hmember hc))
  | _ => exact absurd rfl hinline

/-- So can the statements of a module. -/
theorem Cuts.printable_listed (hg : tree.Cuts g) (hlegible : Legible strict tree) {name : String}
    {nodes : List NodeId} (hid : tree.payload id = .ok (.module name nodes)) :
    ∀ c ∈ nodes, tree.Has c ∧ Python.Printable strict (g c) := by
  intro c hc
  have hhas := (hg.linked.childOf_of_payload hid hc).has
  exact ⟨hhas, hg.printable hlegible hhas ((hg.wellFormed id _ hid).not_module c hc)⟩

theorem Cuts.printable_of_kind (hg : tree.Cuts g) (hlegible : Legible strict tree) {kind : Kind}
    (hid : tree.HasKind kind id) (hkind : kind ≠ .module) : Python.Printable strict (g id) := by
  obtain ⟨node, hnode, -⟩ := map_eq_ok_iff.mp hid
  exact hg.printable hlegible (has_of_node hnode) fun hmodule =>
    hkind (Except.ok.inj (hid.symm.trans hmodule))

end Tree

namespace Python

open Relation

variable {tree : Tree} {id : NodeId} {node : Node} {g : NodeId → Term} {strict : Prop}

/-! ## Renderings -/

/-- The text of a rendering. That of a module ends with a line feed, unless it
is empty. -/
def closed (kind : Kind) (out : String) : String :=
  if kind = .module ∧ out ≠ "" then out ++ "\n" else out

theorem Imports.eq_of_has {first second : Imports}
    (h : ∀ need, first.has need = true ↔ second.has need = true) : first = second := by
  obtain ⟨datetime, abc, any⟩ := first
  obtain ⟨datetime', abc', any'⟩ := second
  have hdatetime := Bool.eq_iff_iff.mpr (h .datetime)
  have habc := Bool.eq_iff_iff.mpr (h .abc)
  have hany := Bool.eq_iff_iff.mpr (h .any)
  simp only [Imports.has] at hdatetime habc hany
  rw [hdatetime, habc, hany]

/-- A page is the text of the module, closed by a line feed. -/
theorem page_lines (imports : Imports) (body : String) :
    page imports.lines body = closed .module (moduleText imports body) := by
  simp only [page, closed, moduleText, true_and]
  generalize (if imports.lines.isEmpty = true then body else _) = out
  by_cases h : out = "" <;> simp [h]

/-- A module imports what its nodes use, at any depth. -/
theorem has_moduleImports (hg : tree.Cuts g) {name : String} {nodes : List NodeId}
    (hid : tree.payload id = .ok (.module name nodes)) (hints : Bool) (need : Need) :
    (moduleImports hints (nodes.map g)).has need = true ↔
      ∃ n, ReflTransGen tree.ChildOf n id ∧ tree.Uses hints need n := by
  rw [moduleImports, List.map_map]
  exact noted_module hg hid ⟨0, hints⟩ need

/-- The imports of a module are the same at all widths. -/
theorem moduleImports_eq (hg : tree.Cuts g) {name : String} {nodes : List NodeId}
    (hid : tree.payload id = .ok (.module name nodes)) (options : PythonOptions) :
    (((nodes.map (partOf g options)).mapM statement).run .none).2 =
      moduleImports options.typeHints (nodes.map g) :=
  Imports.eq_of_has fun need =>
    (noted_module hg hid options need).trans (has_moduleImports hg hid options.typeHints need).symm

/-- The rendering of a node is its outline, printed. -/
theorem render_outline (hg : tree.Cuts g) (hlegible : tree.Legible strict)
    (hnode : tree.node id = .ok node) (writer : Writer) :
    (writer.render tree id).1 = .ok (closed node.kind
      (print writer.options.indent (outline writer.options.typeHints (g id)))) := by
  have hpayload := Tree.payload_eq_ok_iff.mpr ⟨node, hnode, rfl⟩
  by_cases hmodule : node.payload.kind = .module
  · obtain ⟨name, nodes, hp⟩ := Payload.exists_module hmodule
    rw [hp] at hpayload
    have hlaid : ∀ t ∈ nodes.map g, Laid writer.options.indent writer.options.typeHints t :=
      List.forall_mem_map.mpr fun c hc => (hg.printable_listed hlegible hpayload c hc).2.laid _ _
    have hbody := yields_statements hlaid
    rw [List.map_map] at hbody
    rw [render_module hg hpayload writer hbody, moduleImports_eq hg hpayload, page_lines,
      Node.kind, hp, hg.node_eq hnode, hp, Payload.map, outline_module, print_moduleLines,
      print_flatMap _ fun t ht => (hlaid t ht).statement_ne_nil]
    rfl
  · have hlaid := (hg.printable_of_kind hlegible (Tree.hasKind_of_payload hpayload) hmodule).laid
      writer.options.indent writer.options.typeHints
    rw [Writer.render_fst (hg.term_eq hnode), hlaid.yields writer.imports, hg.kind_eq hnode]
    simp [closed, Node.kind, hmodule]

/-! ## Neat outlines -/

section Neat

variable {t : Term} {hints : Bool} {lines : List Line}

theorem Neat.of_clean {s : String} (h : Clean s) (hne : s ≠ "") (depth : Nat) :
    Neat [⟨depth, s⟩] :=
  ⟨List.forall_mem_singleton.mpr h, [], ⟨depth, s⟩, rfl, hne⟩

theorem Neat.cons {line : Line} (h : Clean line.text) (hlines : Neat lines) :
    Neat (line :: lines) :=
  Neat.append (List.forall_mem_singleton.mpr h) hlines

/-- A header above neat lines is neat. -/
theorem Neat.under {head : String} (hhead : Clean head) (h : Neat lines) :
    Neat (under head lines) := by
  rw [Python.under, h.nest_eq]
  exact (h.map_shift 1).cons hhead

theorem Neat.flatten {parts : List (List Line)} (hne : parts ≠ []) (h : ∀ part ∈ parts, Neat part) :
    Neat parts.flatten := by
  induction parts with
  | nil => exact absurd rfl hne
  | cons part parts ih =>
      obtain ⟨hpart, hparts⟩ := List.forall_mem_cons.mp h
      cases parts with
      | nil => simpa using hpart
      | cons next parts => exact Neat.append hpart.clean (ih (List.cons_ne_nil _ _) hparts)

theorem Neat.resumed (h : Neat lines) : Neat (resumed lines) := by
  obtain ⟨hclean, above, last, rfl, hlast⟩ := h
  cases above with
  | nil =>
      have hline := List.forall_mem_singleton.mp hclean
      exact Neat.of_clean (Clean.append (by decide) hline) (by simp) last.depth
  | cons line above =>
      obtain ⟨hline, hrest⟩ := List.forall_mem_cons.mp hclean
      exact Neat.cons (Clean.append (by decide) hline) ⟨hrest, above, last, rfl, hlast⟩

/-- The lines of statements are neat if their comments have no carriage return. -/
theorem neat_statements {nodes : List Term} (h : ∀ t ∈ nodes, Neat (outline hints t))
    (hcomments : ∀ t ∈ nodes, '\r' ∉ t.comment.toList) :
    ∀ part ∈ nodes.map fun t => statementLines (t, outline hints t), Neat part :=
  List.forall_mem_map.mpr fun t ht => Neat.append (clean_remarks (hcomments t ht)) (h t ht)

/-- Methods, each below a blank line. -/
theorem Neat.append_methods (h : Neat lines) {methods : List (List Line)}
    (hmethods : ∀ part ∈ methods, Neat part) :
    Neat (lines ++ (methods.flatMap fun method => [[⟨0, ""⟩], method]).flatten) := by
  induction methods generalizing lines with
  | nil => simpa using h
  | cons method methods ih =>
      obtain ⟨hmethod, hrest⟩ := List.forall_mem_cons.mp hmethods
      exact Neat.append h.clean (Neat.cons (by decide) (ih hmethod hrest))

/-- The members of a class are neat together, blank lines included. -/
theorem neat_members {attributes methods : List (List Line)}
    (hattributes : ∀ part ∈ attributes, Neat part) (hmethods : ∀ part ∈ methods, Neat part) :
    Neat (memberLines attributes methods).flatten := by
  rcases attributes with _ | ⟨field, fields⟩
  · rcases methods with _ | ⟨one, others⟩
    · exact Neat.of_clean (by decide) (by decide) 0
    · obtain ⟨hone, hothers⟩ := List.forall_mem_cons.mp hmethods
      exact hone.append_methods hothers
  · have hfields := Neat.flatten (List.cons_ne_nil _ _) hattributes
    rw [memberLines, List.flatten_append]
    · exact hfields.append_methods hmethods
    · simp
    · simp

/-- In the strict sense the outline of a term is neat. -/
theorem Printable.neat (h : Printable True t) (hints : Bool) : Neat (outline hints t) := by
  have hclean : ∀ {t}, Inline True t → Clean (words hints t) := fun h => (h.tidy_words hints).clean
  have hif : ∀ {s}, Clean s → Clean ("if " ++ s ++ ":") :=
    fun h => (Clean.append (by decide) h).append (by decide)
  induction h with
  | inline h =>
    rw [h.outline_eq hints]
    exact Neat.of_clean (hclean h) ((h.tidy_words hints).ne_empty trivial) 0
  | @block info name nodes _ hcomments ih =>
    rw [outline_block]
    split
    · exact Neat.of_clean (by decide) (by decide) 0
    · next hne =>
      rw [List.flatMap_def]
      exact Neat.flatten (by simpa using hne)
        (neat_statements ih fun t ht => hcomments t ht trivial)
  | function hhead _ ih =>
    rw [outline_function]
    exact ih.under ((hclean hhead).append (by decide))
  | @conditional _ _ _ alternative hcondition _ _ ih ihalternative =>
    rw [outline_conditional]
    have hfirst := ih.under (hif (hclean hcondition))
    cases alternative with
    | none => simpa [elseLines] using hfirst
    | some block =>
        have hblock := ihalternative block rfl
        refine Neat.append hfirst.clean ?_
        rw [Option.map_some, elseLines]
        split
        · exact hblock.resumed
        · exact hblock.under (by decide)
  | whileLoop hcondition _ ih =>
    rw [outline_whileLoop]
    exact ih.under ((Clean.append (by decide) (hclean hcondition)).append (by decide))
  | forLoop htarget hbound hiterable hconditions _ ih =>
    obtain ⟨-, hname⟩ := htarget.exists_target hbound ⟨0, hints⟩
    rw [outline_forLoop]
    refine Neat.under ((((Clean.append (by decide) hname).append (by decide)).append
      (hclean hiterable)).append (by decide)) ?_
    split
    · exact ih
    · exact ih.under (hif (clean_filterWords hconditions hints))
  | rangeLoop hcounter hbound hbounds _ ih =>
    obtain ⟨-, hname⟩ := hcounter.exists_target hbound ⟨0, hints⟩
    have hcommas := clean_commaList (List.forall_mem_map.mpr fun b hb => hclean (hbounds b hb))
    rw [outline_rangeLoop]
    exact ih.under ((((Clean.append (by decide) hname).append (by decide)).append
      hcommas).append (by decide))
  | classDecl hname h =>
    rw [outline_classDecl]
    exact Neat.append (clean_classLines hname.clean (clean_words h hints))
      (Neat.of_clean (by decide) (by decide) 1)
  | @classDef _ _ _ _ attributes methods hname h _ hcomments ih =>
    obtain ⟨hattributes, hmethods⟩ := List.forall_mem_append.mp ih
    obtain ⟨hfields, hfunctions⟩ := List.forall_mem_append.mp hcomments
    have hmembers := neat_members
      (neat_statements hattributes fun t ht => hfields t ht trivial)
      (neat_statements hmethods fun t ht => hfunctions t ht trivial)
    rw [outline_classDef, hmembers.nest_eq]
    exact Neat.append (clean_classLines hname.clean (clean_words h hints)) (hmembers.map_shift 1)

end Neat

/-! ## The rules of the kinds -/

section Rules

/-- A node that is one line. -/
def IsWords (lines : NodeId → List Line) (c : NodeId) (s : String) : Prop :=
  lines c = [⟨0, s⟩]

/-- The lines of a statement, below those of its comment. -/
def IsStatementLines (tree : Tree) (lines : NodeId → List Line) (c : NodeId)
    (part : List Line) : Prop :=
  ∃ node, tree.node c = .ok node ∧ part = remarks node.comment ++ lines c

/-- The name that the target of a loop binds. -/
inductive Binds (tree : Tree) (c : NodeId) : String → Prop
  | variable {name type} : tree.payload c = .ok (.variable name type) → Binds tree c name
  | declaration {declared value} : tree.payload c = .ok (.declaration declared value) →
      Binds tree c declared.name

/-- A block that holds only a conditional without a comment. -/
def HoldsConditional (tree : Tree) (block inner : NodeId) : Prop :=
  ∃ name node, tree.payload block = .ok (.block name [inner]) ∧ tree.node inner = .ok node ∧
    node.kind = .conditional ∧ node.comment = ""

/-- A header with a body, whose lines are one deeper. -/
def headed (head : String) (body : List Line) : List Line :=
  ⟨0, head⟩ :: body.map (·.shift 1)

/-- How the lines of a node are put together from those of its children. -/
inductive Arranged (tree : Tree) (lines : NodeId → List Line) :
    Payload NodeId → List Line → Prop
  | inline {p s} : isInline p.kind = true → Arranged tree lines p [⟨0, s⟩]
  | pass {name} : Arranged tree lines (.block name []) [⟨0, "pass"⟩]
  | block {name nodes parts} : nodes ≠ [] →
      List.Forall₂ (IsStatementLines tree lines) nodes parts →
      Arranged tree lines (.block name nodes) parts.flatten
  | module {name nodes parts} (imports) :
      List.Forall₂ (IsStatementLines tree lines) nodes parts →
      Arranged tree lines (.module name nodes) (moduleLines imports parts.flatten)
  | function {head body s} : IsWords lines head s →
      Arranged tree lines (.function head body) (headed (s ++ ":") (lines body))
  | conditional {condition consequent s} : IsWords lines condition s →
      Arranged tree lines (.conditional condition consequent none)
        (headed ("if " ++ s ++ ":") (lines consequent))
  | chained {condition consequent block inner s head rest} : IsWords lines condition s →
      HoldsConditional tree block inner → lines inner = ⟨0, head⟩ :: rest →
      Arranged tree lines (.conditional condition consequent (some block))
        (headed ("if " ++ s ++ ":") (lines consequent) ++ ⟨0, "el" ++ head⟩ :: rest)
  | alternative {condition consequent block s} : IsWords lines condition s →
      (∀ inner, ¬ HoldsConditional tree block inner) →
      Arranged tree lines (.conditional condition consequent (some block))
        (headed ("if " ++ s ++ ":") (lines consequent) ++ headed "else:" (lines block))
  | whileLoop {condition body s} : IsWords lines condition s →
      Arranged tree lines (.whileLoop condition body) (headed ("while " ++ s ++ ":") (lines body))
  | forLoop {target iterable body name s} : Binds tree target name → IsWords lines iterable s →
      Arranged tree lines (.forLoop target iterable [] body)
        (headed ("for " ++ name ++ " in " ++ s ++ ":") (lines body))
  | filtered {target iterable conditions body name s} (filter) : Binds tree target name →
      IsWords lines iterable s → conditions ≠ [] →
      Arranged tree lines (.forLoop target iterable conditions body)
        (⟨0, "for " ++ name ++ " in " ++ s ++ ":"⟩ :: ⟨1, "if " ++ filter ++ ":"⟩ ::
          (lines body).map (·.shift 2))
  | rangeLoop {counter start stop step body name ss} : Binds tree counter name →
      List.Forall₂ (IsWords lines) (start :: stop :: step.toList) ss →
      Arranged tree lines (.rangeLoop counter start stop step body)
        (headed ("for " ++ name ++ " in range(" ++ commaList ss ++ "):") (lines body))
  | classDecl {header bases decorators names marks} : List.Forall₂ (IsWords lines) bases names →
      List.Forall₂ (IsWords lines) decorators marks →
      Arranged tree lines (.classDecl header bases decorators)
        (classLines header names marks ++ [⟨1, "pass"⟩])
  | classDef {header bases decorators attributes methods names marks fields functions} :
      List.Forall₂ (IsWords lines) bases names → List.Forall₂ (IsWords lines) decorators marks →
      List.Forall₂ (IsStatementLines tree lines) attributes fields →
      List.Forall₂ (IsStatementLines tree lines) methods functions →
      Arranged tree lines (.classDef header bases decorators attributes methods)
        (classLines header names marks ++
          (memberLines fields functions).flatten.map (·.shift 1))

/-- Neat lines lose nothing in a body. -/
theorem Neat.under_eq {head : String} {lines : List Line} (h : Neat lines) :
    Python.under head lines = headed head lines := by
  rw [Python.under, headed, h.nest_eq]

theorem not_isInline {kind : Kind} {r : NodeId} (hr : tree.HasKind kind r)
    (hkind : isInline kind = false) : ¬ tree.IsInline r := by
  rintro ⟨other, hother, hinline⟩
  rw [← Except.ok.inj (hr.symm.trans hother), hkind] at hinline
  cases hinline

/-- Nothing but a block goes on after `el`. -/
theorem isElif_of_hasKind {kind : Kind} (hg : tree.Cuts g) (hid : tree.HasKind kind id)
    (hblock : kind ≠ .block) : isElif (g id) = false := by
  obtain ⟨node, hnode, rfl⟩ := map_eq_ok_iff.mp hid
  exact isElif_of_kind_ne (hg.kind_eq hnode ▸ hblock)

/-- A block continues the chain if it holds nothing but a conditional without a comment. -/
theorem isElif_iff (hg : tree.Cuts g) (hnode : tree.node id = .ok node) :
    isElif (g id) = true ↔ ∃ inner, HoldsConditional tree id inner := by
  have hpayload := Tree.payload_eq_ok_iff.mpr ⟨node, hnode, rfl⟩
  have honly : ∀ {inner child}, tree.node inner = .ok child →
      (((g inner).kind = .conditional && (g inner).comment.isEmpty) = true ↔
        child.kind = .conditional ∧ child.comment = "") := by
    intro inner child hchild
    rw [hg.kind_eq hchild, hg.comment_eq hchild, Bool.and_eq_true, decide_eq_true_eq,
      String.isEmpty_iff]
  rw [isElif, hg.node_eq hnode, Term.payload]
  constructor
  · intro h
    cases hp : node.payload with
    | block name nodes =>
        rw [hp] at h hpayload
        rcases nodes with _ | ⟨inner, _ | ⟨second, rest⟩⟩
        · cases h
        · obtain ⟨child, hchild⟩ : ∃ child, tree.node inner = .ok child :=
            Tree.has_iff.mp (hg.linked.childOf_of_payload hpayload List.mem_cons_self).has
          exact ⟨inner, name, child, hpayload, hchild, (honly hchild).mp h⟩
        · cases h
    | _ =>
        rw [hp] at h
        cases h
  · rintro ⟨inner, name, child, hblock, hchild, h⟩
    rw [Except.ok.inj (hpayload.symm.trans hblock)]
    exact (honly hchild).mpr h

/-- Such a block is laid out like its conditional. -/
theorem outline_holdsConditional (hg : tree.Cuts g) {block inner : NodeId}
    (h : HoldsConditional tree block inner) (hints : Bool) :
    outline hints (g block) = outline hints (g inner) := by
  obtain ⟨name, child, hblock, hchild, -, hcomment⟩ := h
  obtain ⟨node, hnode, hpayload⟩ := Tree.payload_eq_ok_iff.mp hblock
  rw [hg.node_eq hnode, hpayload, Payload.map, outline_block]
  simp only [List.map_cons, List.map_nil, List.isEmpty_cons, Bool.false_eq_true, if_false,
    List.flatMap_cons, List.flatMap_nil, List.append_nil, statementLines]
  rw [hg.comment_eq hchild, hcomment]
  rfl

/-- The outline of every node but a module is neat. -/
theorem neat_outline (hg : tree.Cuts g) (hlegible : tree.Legible True) {kind : Kind} {c : NodeId}
    (hc : tree.HasKind kind c) (hkind : kind ≠ .module) (hints : Bool) :
    Neat (outline hints (g c)) :=
  (hg.printable_of_kind hlegible hc hkind).neat hints

theorem neat_children (hg : tree.Cuts g) (hlegible : tree.Legible True) {kind : Kind}
    {ids : List NodeId} (h : ∀ c ∈ ids, tree.HasKind kind c) (hkind : kind ≠ .module)
    (hints : Bool) :
    ∀ part ∈ (ids.map g).map fun t => statementLines (t, outline hints t), Neat part := by
  refine neat_statements (List.forall_mem_map.mpr fun c hc => ?_)
    (List.forall_mem_map.mpr fun c hc => ?_)
  · exact neat_outline hg hlegible (h c hc) hkind hints
  · exact hlegible.comment hg (h c hc).has trivial

/-- A node that holds no block is one line. -/
theorem outline_inline (hg : tree.Cuts g) (hlegible : tree.Legible strict) {c : NodeId}
    (h : tree.IsInline c) (hints : Bool) : outline hints (g c) = [⟨0, words hints (g c)⟩] :=
  (hg.inline hlegible h).outline_eq hints

/-- Nodes that hold no block are one line each. -/
theorem forall₂_words (hg : tree.Cuts g) (hlegible : tree.Legible strict) {ids : List NodeId}
    (h : ∀ c ∈ ids, tree.IsInline c) (hints : Bool) :
    List.Forall₂ (IsWords fun c => outline hints (g c)) ids ((ids.map g).map (words hints)) := by
  rw [List.map_map, List.forall₂_map_right_iff, List.forall₂_same]
  exact fun c hc => (hg.inline hlegible (h c hc)).outline_eq hints

/-- Each statement has its own lines below those of its comment. -/
theorem forall₂_statements (hg : tree.Cuts g) {ids : List NodeId} (h : ∀ c ∈ ids, tree.Has c)
    (hints : Bool) :
    List.Forall₂ (IsStatementLines tree fun c => outline hints (g c)) ids
      ((ids.map g).map fun t => statementLines (t, outline hints t)) := by
  rw [List.map_map, List.forall₂_map_right_iff, List.forall₂_same]
  intro c hc
  obtain ⟨node, hnode⟩ := Tree.has_iff.mp (h c hc)
  exact ⟨node, hnode, by rw [← hg.comment_eq hnode]; rfl⟩

/-- The name on the line of a loop is the one that its target binds. -/
theorem binds_boundName (hg : tree.Cuts g) {p : Payload NodeId} (hfits : tree.Fits p) {c : NodeId}
    (hc : c ∈ p.target?) : Binds tree c ((boundName? (g c)).getD "") := by
  rcases hfits.target hc with ⟨name, type, hp⟩ | ⟨declared, hp⟩
  all_goals
    obtain ⟨⟨_, _, _, _, q⟩, hbound, rfl⟩ := Tree.payload_eq_ok_iff.mp hp
    rw [hg.node_eq hbound]
  · exact .variable hp
  · exact .declaration hp

/-! ## Each kind of node obeys its rule -/

section Kinds

variable {info : TermInfo} {hints : Bool}

/-- The statements of a block follow one another at one depth. -/
theorem arranged_block (hg : tree.Cuts g) {name : String} {nodes : List NodeId}
    (hhas : ∀ c ∈ nodes, tree.Has c) :
    Arranged tree (fun c => outline hints (g c)) (.block name nodes)
      (outline hints (.node info ((Payload.block name nodes).map g))) := by
  rw [Payload.map, outline_block, List.isEmpty_map]
  split
  · next hnil =>
    rw [List.isEmpty_iff.mp hnil]
    exact .pass
  · next hne =>
    rw [List.flatMap_def]
    exact .block (by simpa using hne) (forall₂_statements hg hhas hints)

/-- The statements of a module follow one another below its imports. -/
theorem arranged_module (hg : tree.Cuts g) {name : String} {nodes : List NodeId}
    (hhas : ∀ c ∈ nodes, tree.Has c) :
    Arranged tree (fun c => outline hints (g c)) (.module name nodes)
      (outline hints (.node info ((Payload.module name nodes).map g))) := by
  rw [Payload.map, outline_module, List.flatMap_def]
  exact .module _ (forall₂_statements hg hhas hints)

/-- The body of a function is one deeper than its head. -/
theorem arranged_function (hg : tree.Cuts g) (hlegible : tree.Legible True) {head body : NodeId}
    (hhead : tree.HasKind .prototype head) (hbody : tree.HasKind .block body) :
    Arranged tree (fun c => outline hints (g c)) (.function head body)
      (outline hints (.node info ((Payload.function head body).map g))) := by
  rw [Payload.map, outline_function, (neat_outline hg hlegible hbody (by decide) hints).under_eq]
  exact .function (outline_inline hg hlegible (hhead.isInline rfl) hints)

/-- The body of a loop is one deeper than its condition. -/
theorem arranged_whileLoop (hg : tree.Cuts g) (hlegible : tree.Legible True)
    {condition body : NodeId} (hcondition : tree.IsCondition condition)
    (hbody : tree.HasKind .block body) :
    Arranged tree (fun c => outline hints (g c)) (.whileLoop condition body)
      (outline hints (.node info ((Payload.whileLoop condition body).map g))) := by
  rw [Payload.map, outline_whileLoop, (neat_outline hg hlegible hbody (by decide) hints).under_eq]
  exact .whileLoop (outline_inline hg hlegible hcondition.isInline hints)

/-- An alternative that holds nothing but a conditional without a comment goes on after
`el`, and every other one stands below `else:`. -/
theorem arranged_conditional (hg : tree.Cuts g) (hlegible : tree.Legible True)
    {condition consequent : NodeId} {alternative : Option NodeId}
    (hcondition : tree.IsCondition condition) (hconsequent : tree.HasKind .block consequent)
    (halternative : ∀ block ∈ alternative, tree.HasKind .block block) :
    Arranged tree (fun c => outline hints (g c)) (.conditional condition consequent alternative)
      (outline hints
        (.node info ((Payload.conditional condition consequent alternative).map g))) := by
  rw [Payload.map, outline_conditional,
    (neat_outline hg hlegible hconsequent (by decide) hints).under_eq]
  have hhead := outline_inline hg hlegible hcondition.isInline hints
  cases alternative with
  | none =>
      rw [Option.map_none, Option.map_none, elseLines, List.append_nil]
      exact .conditional hhead
  | some block =>
      have hblock := halternative block rfl
      obtain ⟨child, hchild, -⟩ := map_eq_ok_iff.mp hblock
      have helse := isElif_iff hg hchild
      rw [Option.map_some, Option.map_some, elseLines]
      split
      · next helif =>
        obtain ⟨inner, hinner⟩ := helse.mp helif
        have hlaid := (hg.printable_of_kind hlegible hblock (by decide)).laid 0 hints
        obtain ⟨s, rest, hlines⟩ := hlaid.head
        rw [hlines, resumed]
        exact .chained hhead hinner ((outline_holdsConditional hg hinner hints).symm.trans hlines)
      · next helif =>
        rw [(neat_outline hg hlegible hblock (by decide) hints).under_eq]
        exact .alternative hhead (not_exists.mp (mt helse.mpr helif))

/-- The body of a loop with conditions stands below them, two deeper than the loop. -/
theorem arranged_forLoop (hg : tree.Cuts g) (hlegible : tree.Legible True)
    {target iterable body : NodeId} {conditions : List NodeId} {name : String}
    (hname : Binds tree target name) (hbound : (boundName? (g target)).getD "" = name)
    (hiterable : tree.IsInline iterable) (hconditions : ∀ c ∈ conditions, tree.IsCondition c)
    (hbody : tree.HasKind .block body) :
    Arranged tree (fun c => outline hints (g c)) (.forLoop target iterable conditions body)
      (outline hints (.node info ((Payload.forLoop target iterable conditions body).map g))) := by
  have hneat := neat_outline hg hlegible hbody (by decide) hints
  have hhead := outline_inline hg hlegible hiterable hints
  rw [Payload.map, outline_forLoop, List.isEmpty_map, hbound]
  split
  · next hnil =>
    rw [List.isEmpty_iff.mp hnil, hneat.under_eq]
    exact .forLoop hname hhead
  · next hne =>
    have hfilter : Clean (filterWords hints (conditions.map g)) :=
      clean_filterWords (List.forall_mem_map.mpr fun c hc =>
        hg.inline hlegible (hconditions c hc).isInline) hints
    have hif : Clean ("if " ++ filterWords hints (conditions.map g) ++ ":") :=
      (Clean.append (by decide) hfilter).append (by decide)
    rw [(hneat.under hif).under_eq, hneat.under_eq, headed, headed, List.map_cons, List.map_map]
    exact .filtered _ hname hhead (by simpa using hne)

/-- The body of a loop over a range is one deeper than its bounds. -/
theorem arranged_rangeLoop (hg : tree.Cuts g) (hlegible : tree.Legible True)
    {counter start stop body : NodeId} {step : Option NodeId} {name : String}
    (hname : Binds tree counter name) (hbound : (boundName? (g counter)).getD "" = name)
    (hbounds : ∀ c ∈ start :: stop :: step.toList, tree.IsInline c)
    (hbody : tree.HasKind .block body) :
    Arranged tree (fun c => outline hints (g c)) (.rangeLoop counter start stop step body)
      (outline hints (.node info ((Payload.rangeLoop counter start stop step body).map g))) := by
  rw [Payload.map, outline_rangeLoop, (neat_outline hg hlegible hbody (by decide) hints).under_eq,
    hbound, Option.toList_map, ← List.map_cons, ← List.map_cons]
  exact .rangeLoop hname (forall₂_words hg hlegible hbounds hints)

/-- Decorators stand above the header of a class, and `pass` below it. -/
theorem arranged_classDecl (hg : tree.Cuts g) (hlegible : tree.Legible True)
    {header : ClassHeader} {bases decorators : List NodeId}
    (hbases : ∀ c ∈ bases, tree.IsInline c) (hdecorators : ∀ c ∈ decorators, tree.IsInline c) :
    Arranged tree (fun c => outline hints (g c)) (.classDecl header bases decorators)
      (outline hints (.node info ((Payload.classDecl header bases decorators).map g))) := by
  rw [Payload.map, outline_classDecl]
  exact .classDecl (forall₂_words hg hlegible hbases hints)
    (forall₂_words hg hlegible hdecorators hints)

/-- The members of a class are one deeper than its header, methods below a blank line. -/
theorem arranged_classDef (hg : tree.Cuts g) (hlegible : tree.Legible True)
    {header : ClassHeader} {bases decorators attributes methods : List NodeId}
    (hbases : ∀ c ∈ bases, tree.IsInline c) (hdecorators : ∀ c ∈ decorators, tree.IsInline c)
    (hattributes : ∀ c ∈ attributes, tree.HasKind .declaration c)
    (hmethods : ∀ c ∈ methods, tree.HasKind .function c) :
    Arranged tree (fun c => outline hints (g c))
      (.classDef header bases decorators attributes methods)
      (outline hints
        (.node info ((Payload.classDef header bases decorators attributes methods).map g))) := by
  have hmembers := neat_members
    (neat_children hg hlegible hattributes (by decide) hints)
    (neat_children hg hlegible hmethods (by decide) hints)
  rw [Payload.map, outline_classDef, hmembers.nest_eq]
  apply Arranged.classDef
  · exact forall₂_words hg hlegible hbases hints
  · exact forall₂_words hg hlegible hdecorators hints
  · exact forall₂_statements hg (fun c hc => (hattributes c hc).has) hints
  · exact forall₂_statements hg (fun c hc => (hmethods c hc).has) hints

end Kinds

/-- The outlines of the nodes obey the rules of their kinds. -/
theorem arranged (hg : tree.Cuts g) (hlegible : tree.Legible True)
    (hnode : tree.node id = .ok node) (hints : Bool) :
    Arranged tree (fun c => outline hints (g c)) node.payload (outline hints (g id)) := by
  have hpayload := Tree.payload_eq_ok_iff.mpr ⟨node, hnode, rfl⟩
  have hfits := hg.wellFormed id _ hpayload
  have hhas : ∀ c ∈ node.payload.children, tree.Has c :=
    fun c hc => (hg.linked.childOf_of_mem hnode hc).has
  have hbinds : ∀ {c}, c ∈ node.payload.target? → Binds tree c ((boundName? (g c)).getD "") :=
    binds_boundName hg hfits
  by_cases hinline : isInline node.payload.kind = true
  · rw [outline_inline hg hlegible ((Tree.hasKind_of_payload hpayload).isInline hinline) hints]
    exact .inline hinline
  rw [hg.node_eq hnode]
  generalize node.payload = p at hfits hhas hbinds hinline
  cases hfits with
  | block => exact arranged_block hg hhas
  | module => exact arranged_module hg hhas
  | function hhead hbody => exact arranged_function hg hlegible hhead hbody
  | conditional hcondition hconsequent halternative =>
      exact arranged_conditional hg hlegible hcondition hconsequent halternative
  | whileLoop hcondition hbody => exact arranged_whileLoop hg hlegible hcondition hbody
  | forLoop h hbody =>
      exact arranged_forLoop hg hlegible (hbinds rfl) rfl (h.isInline _ List.mem_cons_self)
        h.conditions hbody
  | rangeLoop hcounter _ hbounds hbody =>
      exact arranged_rangeLoop hg hlegible (hbinds rfl) rfl
        (fun c hc => (hbounds c hc).isInline) hbody
  | classDecl h =>
      obtain ⟨hbases, hdecorators⟩ := List.forall_mem_append.mp h
      exact arranged_classDecl hg hlegible (fun c hc => (hbases c hc).isInline)
        fun c hc => (hdecorators c hc).isInline
  | classDef h hattributes hmethods =>
      obtain ⟨hbases, hdecorators⟩ := List.forall_mem_append.mp h
      exact arranged_classDef hg hlegible (fun c hc => (hbases c hc).isInline)
        (fun c hc => (hdecorators c hc).isInline) hattributes hmethods
  | _ => exact absurd rfl hinline

/-- The nodes of a tree have lines: those of each node are put together from those
of its children, and printed at any width they are its rendering. -/
structure Layout (tree : Tree) (hints : Bool) (lines : NodeId → List Line) : Prop where
  arranged : ∀ id node, tree.node id = .ok node → Arranged tree lines node.payload (lines id)
  clean : ∀ id, tree.Has id → ∀ line ∈ lines id, Clean line.text
  block_ne_nil : ∀ id, tree.HasKind .block id → lines id ≠ []
  rendered : ∀ id node (writer : Writer), tree.node id = .ok node →
    writer.options.typeHints = hints →
    (writer.render tree id).1 = .ok (closed node.kind (print writer.options.indent (lines id)))

theorem clean_moduleLines (imports : Imports) {lines : List Line}
    (h : ∀ line ∈ lines, Clean line.text) :
    ∀ line ∈ moduleLines imports lines, Clean line.text := by
  have himports : ∀ line ∈ imports.lines.map (Line.mk 0), Clean line.text := by
    obtain ⟨datetime, abc, any⟩ := imports
    revert datetime abc any
    decide
  dsimp only [moduleLines]
  split
  · exact h
  split
  · exact himports
  · exact List.forall_mem_append.mpr
      ⟨himports, List.forall_mem_cons.mpr ⟨by decide, h⟩⟩

/-- No line of a node has a line break in it. -/
theorem clean_outline (hg : tree.Cuts g) (hlegible : tree.Legible True) (hid : tree.Has id)
    (hints : Bool) : ∀ line ∈ outline hints (g id), Clean line.text := by
  obtain ⟨node, hnode⟩ := Tree.has_iff.mp hid
  have hpayload := Tree.payload_eq_ok_iff.mpr ⟨node, hnode, rfl⟩
  by_cases hmodule : node.payload.kind = .module
  · obtain ⟨name, nodes, hp⟩ := Payload.exists_module hmodule
    rw [hp] at hpayload
    rw [hg.node_eq hnode, hp, Payload.map, outline_module]
    apply clean_moduleLines
    intro line hline
    rw [List.flatMap_map] at hline
    obtain ⟨c, hc, hline⟩ := List.mem_flatMap.mp hline
    obtain ⟨hhas, hprintable⟩ := hg.printable_listed hlegible hpayload c hc
    have hcomment := clean_remarks (hlegible.comment hg hhas trivial)
    exact List.forall_mem_append.mpr ⟨hcomment, (hprintable.neat hints).clean⟩ line hline
  · exact (neat_outline hg hlegible (Tree.hasKind_of_payload hpayload) hmodule hints).clean

/-- After every run whose names are not empty and have no line breaks, and whose
comments have no carriage return, the nodes have lines, whatever the width. -/
theorem layout_run (actions : List Workspace.Action) (i : Nat) (hints : Bool)
    (hnames : ∀ node ∈ ((Workspace.run actions).tree i).nodes,
      ∀ name ∈ ownName? node.payload, Clean name ∧ name ≠ "")
    (hcomments : ∀ node ∈ ((Workspace.run actions).tree i).nodes, '\r' ∉ node.comment.toList) :
    ∃ lines, Layout ((Workspace.run actions).tree i) hints lines := by
  obtain ⟨g, hg⟩ := Tree.cuts_run actions i
  have hlegible : ((Workspace.run actions).tree i).Legible True :=
    { names := fun hnode name hname =>
        have hname := hnames _ (Tree.mem_nodes hnode) name hname
        ⟨hname.1, fun _ => hname.2⟩
      comments := fun hnode _ => hcomments _ (Tree.mem_nodes hnode) }
  refine ⟨fun id => outline hints (g id), ?_, ?_, ?_, ?_⟩
  · exact fun id node hnode => arranged hg hlegible hnode hints
  · exact fun id hid => clean_outline hg hlegible hid hints
  · exact fun id hid => (neat_outline hg hlegible hid (by decide) hints).ne_nil
  · rintro id node writer hnode rfl
    exact render_outline hg hlegible hnode writer

/-- A run that builds a loop with a filter around a chain of two conditionals. -/
def filteredChain : List Workspace.Action :=
  [.newTree,
    .build 0 (.variable "x" .any),
    .build 0 (.variable "xs" (.list .any)),
    .build 0 (.variable "wanted" .boolean),
    .build 0 (.variable "first" .boolean),
    .build 0 (.block "then" []),
    .build 0 (.variable "second" .boolean),
    .build 0 .breaking,
    .setComment 0 ⟨0, 6⟩ "done\nhere",
    .build 0 (.block "then" [⟨0, 6⟩]),
    .build 0 (.conditional ⟨0, 5⟩ ⟨0, 7⟩ none),
    .build 0 (.block "else" [⟨0, 8⟩]),
    .build 0 (.conditional ⟨0, 3⟩ ⟨0, 4⟩ (some ⟨0, 9⟩)),
    .build 0 (.block "body" [⟨0, 10⟩]),
    .build 0 (.forLoop ⟨0, 0⟩ ⟨0, 1⟩ [⟨0, 2⟩] ⟨0, 11⟩)]

theorem layout_filteredChain :
    let tree := (Workspace.run filteredChain).tree 0
    (∀ node ∈ tree.nodes, ∀ name ∈ ownName? node.payload, Clean name ∧ name ≠ "") ∧
      (∀ node ∈ tree.nodes, '\r' ∉ node.comment.toList) ∧
      ((Writer.new ⟨2, true⟩).render tree ⟨0, 12⟩).1 =
        .ok ("for x in xs:\n  if wanted:\n    if first:\n      pass\n    elif second:\n" ++
          "      # done\n      # here\n      break") ∧
      ∃ lines, Layout tree true lines := by
  have hnames : ∀ node ∈ ((Workspace.run filteredChain).tree 0).nodes,
      ∀ name ∈ ownName? node.payload, Clean name ∧ name ≠ "" := by decide +kernel
  have hcomments : ∀ node ∈ ((Workspace.run filteredChain).tree 0).nodes,
      '\r' ∉ node.comment.toList := by decide +kernel
  exact ⟨hnames, hcomments, by decide +kernel, layout_run filteredChain 0 true hnames hcomments⟩

end Rules

end Python

end TypedSyntax
