import TypedSyntax.Proofs.Python.Containment

/-!
# Receivers of methods

The parameters of a function begin with `self` exactly if some class lists the function as
a method. This does not depend on what is rendered: the function, its head or any node
that holds it, at whatever depth.
-/

namespace TypedSyntax.Python

open Relation

variable {tree : Tree} {r : NodeId} {g : NodeId → Term} {options : PythonOptions} {s : String}

/-! ## Headers -/

/-- The text of a term, whatever was rendered before. -/
def textOf (options : PythonOptions) (t : Term) : String :=
  ((text options t).run .none).1

theorem yields_textOf (options : PythonOptions) (t : Term) :
    Yields (text options t) (textOf options t) :=
  fun imports => steady_text options t imports .none

theorem textOf_eq {t : Term} (h : Yields (text options t) s) : textOf options t = s :=
  h .none

theorem yields_hint (options : PythonOptions) (type : DataType) :
    Yields (annotate options type) (if options.typeHints then some (hint type) else none) := by
  unfold annotate
  split
  · have hneeds : Yields (needType type) () := fun _ => rfl
    exact hneeds.bind (yields_pure _)
  · exact yields_pure _

/-- The header of a function, up to its colon. -/
def headerText (options : PythonOptions) (signature : Signature) (parameters : List String) :
    String :=
  "def " ++ signature.name ++ "(" ++ commaList parameters ++ ")" ++
    if options.typeHints then " -> " ++ hint signature.returnType else ""

/-- The text of a prototype is its header, with `self` only for a method. -/
theorem textOf_prototype (hg : tree.Cuts g) {node : Node} (hnode : tree.node r = .ok node)
    {signature : Signature} {arguments : List NodeId}
    (hr : node.payload = .prototype signature arguments) :
    textOf options (g r) = headerText options signature
      ((if tree.isMethodHead node then ["self"] else []) ++
        arguments.map fun a => textOf options (g a)) := by
  apply textOf_eq
  have hparameters : Yields (texts (arguments.map (partOf g options)))
      (arguments.map fun a => textOf options (g a)) := by
    apply yields_mapM
    rw [List.forall₂_map_left_iff, List.forall₂_map_right_iff, List.forall₂_same]
    exact fun a _ => yields_textOf options (g a)
  have hresult := yields_hint options signature.returnType
  rw [text_cut hg hnode, hr, Payload.map, nodeText, headerText]
  refine hparameters.bind (hresult.bind ?_)
  cases options.typeHints <;> exact yields_pure _

/-- A function is its header above its body. -/
theorem textOf_function (hg : tree.Cuts g) {head body : NodeId}
    (hr : tree.payload r = .ok (.function head body)) :
    textOf options (g r) = textOf options (g head) ++ ":\n" ++
      indentLines options (textOf options (g body)) := by
  obtain ⟨info, htext⟩ := exists_text_cut options hg hr
  have hbody : Yields (Python.body options (partOf g options body))
      (indentLines options (textOf options (g body))) :=
    (yields_textOf options (g body)).bind (yields_pure _)
  apply textOf_eq
  rw [htext, Payload.map, nodeText]
  exact (yields_textOf options (g head)).bind (hbody.bind (yields_pure _))

/-- A function shows its header. -/
theorem shows_function (hg : tree.Cuts g) {head body : NodeId}
    (hr : tree.payload r = .ok (.function head body)) :
    Shows tree g options (textOf options (g head) ++ ":") r := by
  apply shows_of_kind hg (Tree.hasKind_of_payload hr) rfl nofun nofun
  intro imports
  rw [yields_textOf options (g r) imports, textOf_function hg hr]
  exact stands_header _ _

/-- Every node but a module is rendered as the text of its term. -/
theorem render_eq_textOf (hg : tree.Cuts g) {kind : Kind} (hr : tree.HasKind kind r)
    (hmodule : kind ≠ .module) (writer : Writer) :
    (writer.render tree r).1 = .ok (textOf writer.options (g r)) := by
  obtain ⟨node, hnode, hkind⟩ := map_eq_ok_iff.mp hr
  have hne : ¬ ((g r).kind = .module && !(textOf writer.options (g r)).isEmpty) := by
    rw [hg.kind_eq hnode, hkind]
    simp [hmodule]
  rw [Writer.render_fst (hg.term_eq hnode), yields_textOf writer.options (g r) writer.imports]
  exact congrArg Except.ok (if_neg hne)

/-- What a node shows stands in its rendering. -/
theorem Shows.rendered (hg : tree.Cuts g) (hr : tree.Has r) {writer : Writer}
    (h : Shows tree g writer.options s r) :
    ∃ t, (writer.render tree r).1 = .ok t ∧ Stands 0 s t := by
  obtain ⟨node, hnode⟩ := Tree.has_iff.mp hr
  have hstands := h.stands writer.imports
  refine ⟨_, Writer.render_fst (hg.term_eq hnode), ?_⟩
  split
  · have hbelow := hstands.below ""
    rwa [String.append_empty] at hbelow
  · exact hstands

/-! ## After every run -/

/-- The parameter that a function has before its declared ones. -/
inductive Receives (tree : Tree) (p : NodeId) : List String → Prop
  | method : tree.HeadsMethod p → Receives tree p ["self"]
  | plain : ¬ tree.HeadsMethod p → Receives tree p []

/-- The flag of a head says whether its function is a method of a class. -/
theorem receives_isMethodHead (ht : Tree.Sound tree) {p : NodeId} {node : Node}
    (hnode : tree.node p = .ok node) (hp : tree.HasKind .prototype p) :
    Receives tree p (if tree.isMethodHead node then ["self"] else []) := by
  have hmethod := ht.isMethodHead_iff_headsMethod hnode hp
  split
  · next h => exact .method (hmethod.mp h)
  · next h => exact .plain fun hheads => h (hmethod.mpr hheads)

/-- Inside a block, the methods of classes alone receive anything. -/
theorem Receives.below (ht : Tree.Sound tree) {p f body inner : NodeId} {own : List String}
    (h : Receives tree p own) (hf : tree.payload f = .ok (.function p body))
    (hinner : tree.HasKind .block inner) (hbelow : ReflTransGen tree.ChildOf f inner) :
    ∃ q, ReflTransGen tree.ChildOf q inner ∧
      ((tree.ListsInBlock q f ∧ own = []) ∨ (tree.ListsMethod q f ∧ own = ["self"])) := by
  obtain ⟨q, habove, hq⟩ := ht.function_below hf hinner hbelow
  refine ⟨q, habove, ?_⟩
  rcases hq with ⟨hlists, hnot⟩ | ⟨hlists, hheads⟩
  · cases h with
    | method hheads => exact absurd hheads hnot
    | plain => exact .inl ⟨hlists, rfl⟩
  · cases h with
    | method => exact .inr ⟨hlists, rfl⟩
    | plain hnot => exact absurd hheads hnot

/-- A text is the header of a function wherever the header is rendered: by itself, with the
function, and with whatever holds the function. -/
structure IsHeader (tree : Tree) (writer : Writer) (p : NodeId) (s : String) : Prop where
  head : (writer.render tree p).1 = .ok s
  function : ∀ {f body}, tree.payload f = .ok (.function p body) →
    ∃ t, (writer.render tree body).1 = .ok t ∧
      (writer.render tree f).1 = .ok (s ++ ":\n" ++ indentLines writer.options t)
  above : ∀ {f body r}, tree.payload f = .ok (.function p body) →
    ReflTransGen tree.ChildOf f r →
    ∃ t depth, (writer.render tree r).1 = .ok t ∧
      Stands 0 ((indentLines writer.options)^[depth] (s ++ ":")) t

/-- The header of a function is the same wherever it is rendered. -/
theorem isHeader (hg : tree.Cuts g) {p : NodeId} (hp : tree.HasKind .prototype p)
    (writer : Writer) : IsHeader tree writer p (textOf writer.options (g p)) where
  head := render_eq_textOf hg hp (by decide) writer
  function := by
    intro f body hf
    have hkind : tree.HasKind .function f := Tree.hasKind_of_payload hf
    have hfits := hg.wellFormed f _ hf
    cases hfits with
    | function _ hbody =>
        refine ⟨_, render_eq_textOf hg hbody (by decide) writer, ?_⟩
        rw [render_eq_textOf hg hkind (by decide), textOf_function hg hf]
  above := by
    intro f body r hf hr
    obtain ⟨node, hnode, -⟩ := Tree.payload_eq_ok_iff.mp hf
    have hhas : tree.Has r := hg.linked.has_of_below (Tree.has_of_node hnode) hr
    have hfunction : Shows tree g writer.options (textOf writer.options (g p) ++ ":") f :=
      shows_function hg hf
    obtain ⟨depth, hshows⟩ := hfunction.climb hg (sealed_colon _) hr
    obtain ⟨t, ht, hstands⟩ := hshows.rendered hg hhas
    exact ⟨t, depth, ht, hstands⟩

/-- After every run, a function receives `self` exactly if some class lists it as a method,
however its header is rendered. Functions inside the body of a function receive it only as
methods of classes there. -/
theorem receives_run (actions : List Workspace.Action) (i : Nat) (writer : Writer) {p : NodeId}
    {signature : Signature} {arguments : List NodeId}
    (hp : ((Workspace.run actions).tree i).payload p = .ok (.prototype signature arguments)) :
    let tree := (Workspace.run actions).tree i
    ∃ own parameters, Receives tree p own ∧
      List.Forall₂ (fun a s => (writer.render tree a).1 = .ok s) arguments parameters ∧
      IsHeader tree writer p (headerText writer.options signature (own ++ parameters)) ∧
      ∀ {f body m head inner}, tree.payload f = .ok (.function p body) →
        tree.payload m = .ok (.function head inner) → ReflTransGen tree.ChildOf f inner →
        ∃ q, ReflTransGen tree.ChildOf q inner ∧
          ((tree.ListsInBlock q f ∧ own = []) ∨ (tree.ListsMethod q f ∧ own = ["self"])) := by
  obtain ⟨g, hg⟩ := Tree.cuts_run actions i
  have ht := Tree.sound_run actions i
  generalize (Workspace.run actions).tree i = tree at hp hg ht ⊢
  obtain ⟨node, hnode, hpayload⟩ := Tree.payload_eq_ok_iff.mp hp
  have hkind : tree.HasKind .prototype p := Tree.hasKind_of_payload hp
  have hown := receives_isMethodHead ht hnode hkind
  have hheader := isHeader hg hkind writer
  rw [textOf_prototype hg hnode hpayload] at hheader
  refine ⟨_, _, hown, ?_, hheader, ?_⟩
  · have hfits := ht.wellFormed p _ hp
    rw [List.forall₂_map_right_iff, List.forall₂_same]
    cases hfits with
    | prototype harguments =>
        exact fun a ha => render_eq_textOf hg (harguments a ha) (by decide) writer
  · intro f body m head inner hf hm hbelow
    have hfits := ht.wellFormed m _ hm
    cases hfits with
    | function _ hinner => exact hown.below ht hf hinner hbelow

/-- A run that builds a class with a method, and a function inside the method. -/
def nestedFunction : List Workspace.Action :=
  [.newTree,
    .build 0 (.prototype ⟨"inner", .int true .w64, .global, .public, .constant⟩ []),
    .build 0 (.block "leaf" []),
    .build 0 (.function ⟨0, 0⟩ ⟨0, 1⟩),
    .build 0 (.prototype ⟨"outer", .any, .global, .public, .constant⟩ []),
    .build 0 (.block "body" [⟨0, 2⟩]),
    .build 0 (.function ⟨0, 3⟩ ⟨0, 4⟩),
    .build 0 (.classDef ⟨"C", false, .public⟩ [] [] [] [⟨0, 5⟩])]

/-- A method has `self`, and a function inside of it does not. -/
theorem receives_nestedFunction :
    let tree := (Workspace.run nestedFunction).tree 0
    let writer := Writer.new ⟨2, true⟩
    tree.payload ⟨0, 3⟩ = .ok (.prototype ⟨"outer", .any, .global, .public, .constant⟩ []) ∧
      tree.payload ⟨0, 0⟩ =
        .ok (.prototype ⟨"inner", .int true .w64, .global, .public, .constant⟩ []) ∧
      IsHeader tree writer ⟨0, 3⟩ "def outer(self) -> Any" ∧
      IsHeader tree writer ⟨0, 0⟩ "def inner() -> int" := by
  intro tree writer
  have houter : tree.payload ⟨0, 3⟩ =
      .ok (.prototype ⟨"outer", .any, .global, .public, .constant⟩ []) := rfl
  have hinner : tree.payload ⟨0, 0⟩ =
      .ok (.prototype ⟨"inner", .int true .w64, .global, .public, .constant⟩ []) := rfl
  refine ⟨houter, hinner, ?_, ?_⟩
  · obtain ⟨own, parameters, hown, hparameters, hheader, -⟩ :=
      receives_run nestedFunction 0 writer houter
    cases hparameters
    have hlists : tree.ListsMethod ⟨0, 6⟩ ⟨0, 5⟩ := ⟨_, _, _, _, _, rfl, List.mem_singleton_self _⟩
    cases hown with
    | method => exact hheader
    | plain hnot => exact absurd ⟨_, _, _, hlists, rfl⟩ hnot
  · obtain ⟨own, parameters, hown, hparameters, hheader, -⟩ :=
      receives_run nestedFunction 0 writer hinner
    cases hparameters
    have hlists : tree.ListsInBlock ⟨0, 4⟩ ⟨0, 2⟩ := ⟨_, _, rfl, List.mem_singleton_self _⟩
    cases hown with
    | method hheads =>
        exact absurd hheads ((Tree.sound_run nestedFunction 0).not_headsMethod rfl hlists)
    | plain => exact hheader

end TypedSyntax.Python
