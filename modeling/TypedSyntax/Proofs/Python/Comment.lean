import TypedSyntax.Proofs.Python.Insertion
import TypedSyntax.Proofs.Python.Layout

/-!
# Comments above statements

After every run, a comment on a statement puts lines in above it, and all other
lines of what holds the statement stay as they are. The lines begin with a number
sign if no line of the comment has a carriage return before its end.
-/

namespace TypedSyntax

namespace Tree

open Relation

variable {tree tree' tree'' : Tree} {id n : NodeId} {node : Node} {comment : String}
  {g g' : NodeId → Term}

/-- Trees that differ from a third one in a comment differ from each other in this comment. -/
theorem Commented.trans {comment' : String} (h : tree.Commented tree' n comment)
    (h' : tree.Commented tree'' n comment') : tree'.Commented tree'' n comment' where
  id_eq := h'.id_eq.trans h.id_eq.symm
  size_eq := h'.size_eq.trans h.size_eq.symm
  pending_eq := h'.pending_eq.trans h.pending_eq.symm
  has := by
    obtain ⟨node, hnode⟩ := has_iff.mp h.has
    rw [has_iff, h.node_eq, hnode]
    exact ⟨_, rfl⟩
  node_eq := by
    intro other
    rw [h'.node_eq, h.node_eq]
    cases tree.node other with
    | error e => rfl
    | ok node => by_cases hother : other = n <;> simp [Except.map, hother]

theorem Commented.parent_eq (h : tree.Commented tree' n comment) (id : NodeId) :
    tree'.parent id = tree.parent id := by
  rw [parent, parent, h.node_eq]
  cases tree.node id with
  | error e => rfl
  | ok node => by_cases hid : id = n <;> simp [Except.map, hid]

theorem Commented.kind_eq (h : tree.Commented tree' n comment) (id : NodeId) :
    tree'.kind id = tree.kind id := by
  rw [kind, kind, h.node_eq]
  cases tree.node id with
  | error e => rfl
  | ok node => by_cases hid : id = n <;> simp [Except.map, hid, Node.kind]

/-- A comment moves no node. -/
theorem Commented.childOf_eq (h : tree.Commented tree' n comment) :
    tree'.ChildOf = tree.ChildOf := by
  funext c p
  exact propext h.childOf_iff

/-- A comment needs no import. -/
theorem Commented.uses_iff (h : tree.Commented tree' n comment) {hints : Bool}
    {need : Python.Need} : tree'.Uses hints need id ↔ tree.Uses hints need id := by
  simp only [Uses, IsLoopTarget, h.payload_eq]

/-- The term of a node in the tree with the comment. -/
theorem Commented.cut_eq (h : tree.Commented tree' n comment) (hg' : tree'.Cuts g')
    (hnode : tree.node id = .ok node) :
    g' id = .node ⟨id, node.tag, node.loc, if id = n then comment else node.comment,
      tree.isMethodHead node⟩ (node.payload.map g') := by
  have hnode' : tree'.node id = .ok (if id = n then { node with comment } else node) := by
    rw [h.node_eq, hnode]
    rfl
  have hmethod : ∀ node : Node, tree'.isMethodHead node = tree.isMethodHead node := by
    intro node
    simp only [isMethodHead, h.parent_eq, h.kind_eq]
  rw [hg'.node_eq hnode', hmethod]
  by_cases hid : id = n
  · simp only [hid, if_true]
    rfl
  · simp only [hid, if_false]

/-- Terms that do not hold the node stay as they are. -/
theorem Commented.cut_off_path (h : tree.Commented tree' n comment) (hg : tree.Cuts g)
    (hg' : tree'.Cuts g') (hid : tree.Has id) (hoff : ¬ ReflTransGen tree.ChildOf n id) :
    g' id = g id := by
  revert hoff
  refine hg.linked.induction
    (P := fun id => ¬ ReflTransGen tree.ChildOf n id → g' id = g id) ?_ hid
  intro id hid ih hoff
  obtain ⟨node, hnode⟩ := has_iff.mp hid
  have hne : id ≠ n := by
    rintro rfl
    exact hoff ReflTransGen.refl
  rw [h.cut_eq hg' hnode, hg.node_eq hnode, if_neg hne]
  congr 1
  apply Payload.map_congr
  intro c hc
  have hchild := hg.linked.childOf_of_mem hnode hc
  exact ih c hchild fun hn => hoff (hn.tail hchild)

end Tree

namespace Python

open Relation

variable {tree tree' : Tree} {id n : NodeId} {node : Node} {comment : String} {hints : Bool}
  {g g' : NodeId → Term} {marks : List (List Char)} {first : List Char}

/-! ## The commented node -/

/-- The outline of a node does not hold its own comment. -/
theorem nodeOutline_info {info info' : TermInfo} (h : info.isMethod = info'.isMethod) (hints : Bool)
    (p : Payload Sketch) : nodeOutline hints info p = nodeOutline hints info' p := by
  have htext : ∀ {p : Payload Part}, nodeText ⟨0, hints⟩ info p = nodeText ⟨0, hints⟩ info' p := by
    intro p
    cases p with
    | prototype => simp only [nodeText, h]
    | returning value => cases value <;> rfl
    | _ => rfl
  have hwords : ∀ p : Payload Term, words hints (.node info p) = words hints (.node info' p) := by
    intro p
    rw [words, words, text_node, text_node, htext]
  cases p <;> first | rfl | simp only [nodeOutline, hwords]

/-- A tree without a comment on a node, the same tree with a comment there, and the
terms of their nodes. -/
structure Remarked (tree tree' : Tree) (n : NodeId) (comment : String) (g g' : NodeId → Term) :
    Prop where
  commented : tree.Commented tree' n comment
  cuts : tree.Cuts g
  cuts' : tree'.Cuts g'
  uncommented : ∀ node, tree.node n = .ok node → node.comment = ""

/-- The lines of a node do not show its own comment. -/
theorem outline_commented (h : tree.Commented tree' n comment) (hg : tree.Cuts g)
    (hg' : tree'.Cuts g') (hints : Bool) : outline hints (g' n) = outline hints (g n) := by
  obtain ⟨node, hnode⟩ := Tree.has_iff.mp h.has
  have hchildren : node.payload.map g' = node.payload.map g := by
    apply Payload.map_congr
    intro c hc
    have hchild := hg.linked.childOf_of_mem hnode hc
    exact h.cut_off_path hg hg' hchild.has fun hn =>
      hg.linked.acyclic n (TransGen.tail' hn hchild)
  rw [h.cut_eq hg' hnode, hg.node_eq hnode, hchildren, outline_node, outline_node]
  exact nodeOutline_info rfl hints _

/-- What a reader sees of a line of a comment. -/
def markOf (line : List Char) : List Char :=
  '#' :: ' ' :: Text.dropReturn line

/-- What a reader sees of a comment. -/
def marksOf (comment : String) : List (List Char) :=
  (Text.lines comment.toList).map markOf

theorem notMem_dropReturn {line : List Char} (h : '\r' ∉ line.dropLast) :
    '\r' ∉ Text.dropReturn line := by
  unfold Text.dropReturn
  split
  · exact h
  · next hlast =>
    intro hmem
    rcases List.eq_nil_or_concat' line with rfl | ⟨above, last, rfl⟩
    · cases hmem
    · rw [List.dropLast_concat] at h
      rcases List.mem_append.mp hmem with hmem | hmem
      · exact h hmem
      · rw [List.getLast?_concat, ← List.mem_singleton.mp hmem] at hlast
        exact hlast rfl

/-- A line of a comment reads as a remark, whatever carriage returns are at its end. -/
theorem isRemark_markOf {line : List Char} (hfeed : '\n' ∉ line) (hreturn : '\r' ∉ line.dropLast) :
    IsRemark 0 (markOf line) ⟨0, "# " ++ String.ofList line⟩ where
  depth_eq := rfl
  drop_eq := by
    have htext : ("# " ++ String.ofList line).toList = '#' :: ' ' :: line := by simp
    rw [htext, dropReturn_cons_of_ne (by decide), dropReturn_cons_of_ne (by decide)]
    rfl
  clean := by
    have hdrop : ∀ c ∈ Text.dropReturn line, c ≠ '\n' ∧ c ≠ '\r' := by
      intro c hc
      exact ⟨fun he => hfeed (he ▸ (Text.dropReturn_isPrefix line).subset hc),
        fun he => notMem_dropReturn hreturn (he ▸ hc)⟩
    have hspace : ∀ c ∈ ['#', ' '], c ≠ '\n' ∧ c ≠ '\r' := by simp
    exact List.forall_mem_append.mpr ⟨hspace, hdrop⟩
  ne_nil := List.cons_ne_nil _ _

/-- The lines of a comment read as they are meant to. -/
theorem forall₂_remarks (h : ∀ line ∈ Text.lines comment.toList, '\r' ∉ line.dropLast) :
    List.Forall₂ (IsRemark 0) (marksOf comment) (remarks comment) := by
  rw [marksOf, remarks, List.forall₂_map_left_iff, List.forall₂_map_right_iff, List.forall₂_same]
  exact fun line hline => isRemark_markOf (Text.of_mem_lines hline).1 (h line hline)

/-! ## What each kind of node keeps -/

section Kinds

variable {above : List Line} {info info' : TermInfo} {part part' : Term}

/-- The statement of a node below its comment. -/
def statementOf (hints : Bool) (g : NodeId → Term) (c : NodeId) : List Line :=
  statementLines (g c, outline hints (g c))

theorem statementOf_congr {c : NodeId} (h : g' c = g c) (hints : Bool) :
    statementOf hints g' c = statementOf hints g c := by
  rw [statementOf, statementOf, h]

/-- What is inserted in one statement of a block is inserted in the block. -/
theorem Inserted.block {c : NodeId}
    (h : Inserted marks first above (statementOf hints g c) (statementOf hints g' c))
    (name : String) {nodes : List NodeId} (hc : c ∈ nodes) (hnodup : nodes.Nodup)
    (hsame : ∀ d ∈ nodes, d ≠ c → g' d = g d) :
    ∃ lines, Inserted marks first (lines ++ above)
      (outline hints (.node info (.block name (nodes.map g))))
      (outline hints (.node info' (.block name (nodes.map g')))) := by
  obtain ⟨lines, hlines⟩ := h.flatMap hc hnodup fun d hd hne =>
    statementOf_congr (hsame d hd hne) hints
  have hne : nodes ≠ [] := List.ne_nil_of_mem hc
  refine ⟨lines, ?_⟩
  rw [outline_block, outline_block, if_neg (by simpa using hne), if_neg (by simpa using hne),
    List.flatMap_map, List.flatMap_map]
  exact hlines

/-- What is inserted in one statement of a module is inserted in the module. -/
theorem Inserted.moduleNode {c : NodeId}
    (h : Inserted marks first above (statementOf hints g c) (statementOf hints g' c))
    (name : String) {nodes : List NodeId} (hc : c ∈ nodes) (hnodup : nodes.Nodup)
    (hsame : ∀ d ∈ nodes, d ≠ c → g' d = g d)
    (himports : moduleImports hints (nodes.map g') = moduleImports hints (nodes.map g)) :
    ∃ lines, Inserted marks first (lines ++ above)
      (outline hints (.node info (.module name (nodes.map g))))
      (outline hints (.node info' (.module name (nodes.map g')))) := by
  obtain ⟨lines, hlines⟩ := h.flatMap hc hnodup fun d hd hne =>
    statementOf_congr (hsame d hd hne) hints
  obtain ⟨top, htop⟩ := hlines.module (moduleImports hints (nodes.map g))
  refine ⟨top ++ lines, ?_⟩
  rw [outline_module, outline_module, himports, List.flatMap_map, List.flatMap_map,
    List.append_assoc]
  exact htop

/-- What is inserted in one member of a class is inserted in the class. -/
theorem Inserted.classDef {c : NodeId}
    (h : Inserted marks first above (statementOf hints g c) (statementOf hints g' c))
    (header : ClassHeader) (bases decorators : List Term) {attributes methods : List NodeId}
    (hc : c ∈ attributes ++ methods) (hnodup : (attributes ++ methods).Nodup)
    (hsame : ∀ d ∈ attributes ++ methods, d ≠ c → g' d = g d) :
    ∃ above', Inserted marks first above'
      (outline hints (.node info
        (.classDef header bases decorators (attributes.map g) (methods.map g))))
      (outline hints (.node info'
        (.classDef header bases decorators (attributes.map g') (methods.map g')))) := by
  obtain ⟨lines, hlines⟩ := h.members hc hnodup fun d hd hne =>
    statementOf_congr (hsame d hd hne) hints
  have hclass := hlines.nest.append_left
    (classLines header (bases.map (words hints)) (decorators.map (words hints)))
  rw [outline_classDef, outline_classDef, List.map_map, List.map_map, List.map_map, List.map_map]
  exact ⟨_, hclass⟩

/-- What is inserted in the body of a function is inserted below its head. -/
theorem Inserted.function
    (h : Inserted marks first above (outline hints part) (outline hints part')) (head : Term) :
    ∃ line lines, Inserted marks first (line :: lines)
      (outline hints (.node info (.function head part)))
      (outline hints (.node info' (.function head part'))) := by
  rw [outline_function, outline_function]
  exact ⟨_, _, h.under _⟩

theorem Inserted.whileLoop
    (h : Inserted marks first above (outline hints part) (outline hints part')) (condition : Term) :
    ∃ line lines, Inserted marks first (line :: lines)
      (outline hints (.node info (.whileLoop condition part)))
      (outline hints (.node info' (.whileLoop condition part'))) := by
  rw [outline_whileLoop, outline_whileLoop]
  exact ⟨_, _, h.under _⟩

/-- What is inserted in the body of a loop is inserted below its head and its filter. -/
theorem Inserted.forLoop
    (h : Inserted marks first above (outline hints part) (outline hints part'))
    (target iterable : Term) (conditions : List Term) :
    ∃ line lines, Inserted marks first (line :: lines)
      (outline hints (.node info (.forLoop target iterable conditions part)))
      (outline hints (.node info' (.forLoop target iterable conditions part'))) := by
  rw [outline_forLoop, outline_forLoop]
  split
  · exact ⟨_, _, h.under _⟩
  · exact ⟨_, _, (h.under _).under _⟩

theorem Inserted.rangeLoop
    (h : Inserted marks first above (outline hints part) (outline hints part'))
    (counter start stop : Term) (step : Option Term) :
    ∃ line lines, Inserted marks first (line :: lines)
      (outline hints (.node info (.rangeLoop counter start stop step part)))
      (outline hints (.node info' (.rangeLoop counter start stop step part'))) := by
  rw [outline_rangeLoop, outline_rangeLoop]
  exact ⟨_, _, h.under _⟩

/-- What is inserted in the first block of a conditional is inserted below its
condition. -/
theorem Inserted.consequent
    (h : Inserted marks first above (outline hints part) (outline hints part')) (condition : Term)
    (alternative : Option Term) :
    ∃ line lines, Inserted marks first (line :: lines)
      (outline hints (.node info (.conditional condition part alternative)))
      (outline hints (.node info' (.conditional condition part' alternative))) := by
  rw [outline_conditional, outline_conditional]
  exact ⟨_, _, (h.under _).append_right _⟩

/-- A chain goes on below its first line. -/
theorem Inserted.alternative
    (h : Inserted marks first above (outline hints part) (outline hints part'))
    (helif : isElif part' = isElif part) (hne : isElif part = true → above ≠ [])
    (condition consequent : Term) :
    ∃ line lines, Inserted marks first (line :: lines)
      (outline hints (.node info (.conditional condition consequent (some part))))
      (outline hints (.node info' (.conditional condition consequent (some part')))) := by
  rw [outline_conditional, outline_conditional, Option.map_some, Option.map_some, elseLines,
    elseLines, helif]
  split
  · next hchain => exact ⟨_, _, (h.resumed (hne hchain)).append_left _⟩
  · exact ⟨_, _, (h.under _).append_left _⟩

end Kinds

/-! ## The path to the comment -/

/-- The lines of a statement differ in remarks. -/
def StatementDiffers (tree : Tree) (n : NodeId) (hints : Bool) (marks : List (List Char))
    (first : List Char) (g g' : NodeId → Term) (c : NodeId) : Prop :=
  ∃ above, Inserted marks first above (statementOf hints g c) (statementOf hints g' c) ∧
    (c ≠ n → tree.HasKind .conditional c → above ≠ [])

/-- The lines of a node differ in remarks. In a conditional, and in a block that goes on
as a chain, they stand below the first line. -/
structure Differs (tree : Tree) (n : NodeId) (hints : Bool) (marks : List (List Char))
    (first : List Char) (g g' : NodeId → Term) (c : NodeId) : Prop where
  not_inline : ¬ tree.IsInline c
  exists_above : ∃ above, Inserted marks first above (outline hints (g c)) (outline hints (g' c)) ∧
    (tree.HasKind .conditional c → above ≠ []) ∧
    (isElif (g c) = true → ¬ HoldsConditional tree c n → above ≠ [])

section Path

variable {c r : NodeId}

/-- The statement itself has its remarks above its first line. -/
theorem Remarked.statement_self (h : Remarked tree tree' n comment g g')
    (hreturns : ∀ line ∈ Text.lines comment.toList, '\r' ∉ line.dropLast)
    (hopens : Opens 0 first (outline hints (g n))) :
    StatementDiffers tree n hints (marksOf comment) first g g' n := by
  obtain ⟨node, hnode⟩ := Tree.has_iff.mp h.commented.has
  refine ⟨[], ⟨0, remarks comment, outline hints (g n), ?_, ?_, forall₂_remarks hreturns, hopens⟩,
    fun hne => absurd rfl hne⟩
  · rw [statementOf, statementLines, h.cuts.comment_eq hnode, h.uncommented node hnode]
    rfl
  · rw [statementOf, statementLines, outline_commented h.commented h.cuts h.cuts',
      h.commented.cut_eq h.cuts' hnode, if_pos rfl]
    rfl

/-- Below its own comment, a statement differs as its lines do. -/
theorem Remarked.statement_of_differs (h : Remarked tree tree' n comment g g') (hc : tree.Has c)
    (hne : c ≠ n) (hdiffers : Differs tree n hints marks first g g' c) :
    StatementDiffers tree n hints marks first g g' c := by
  obtain ⟨node, hnode⟩ := Tree.has_iff.mp hc
  obtain ⟨above, habove, hconditional, -⟩ := hdiffers.exists_above
  have hcomment : (g' c).comment = (g c).comment := by
    rw [h.commented.cut_eq h.cuts' hnode, h.cuts.comment_eq hnode, if_neg hne]
    rfl
  refine ⟨remarks (g c).comment ++ above, ?_, fun _ hkind => ?_⟩
  · rw [statementOf, statementOf, statementLines, statementLines, hcomment]
    exact habove.append_left _
  · exact List.append_ne_nil_of_right_ne_nil _ (hconditional hkind)

/-- The comment changes no alternative into a chain, unless the node stands alone in
it. -/
theorem Remarked.isElif_eq (h : Remarked tree tree' n comment g g') {block : NodeId}
    (hblock : tree.Has block) (halone : ¬ HoldsConditional tree block n) :
    isElif (g' block) = isElif (g block) := by
  obtain ⟨node, hnode⟩ := Tree.has_iff.mp hblock
  obtain ⟨node', hnode'⟩ : ∃ node', tree'.node block = .ok node' := by
    rw [h.commented.node_eq, hnode]
    exact ⟨_, rfl⟩
  rw [Bool.eq_iff_iff, isElif_iff h.cuts' hnode', isElif_iff h.cuts hnode]
  constructor
  · rintro ⟨inner, name, child, hblock, hchild, hkind, hcomment⟩
    rw [h.commented.payload_eq] at hblock
    rw [h.commented.node_eq] at hchild
    obtain ⟨child, hold, rfl⟩ := map_eq_ok_iff.mp hchild
    by_cases hne : inner = n
    · subst hne
      rw [if_pos rfl] at hkind
      exact absurd ⟨name, child, hblock, hold, hkind, h.uncommented child hold⟩ halone
    · rw [if_neg hne] at hkind hcomment
      exact ⟨inner, name, child, hblock, hold, hkind, hcomment⟩
  · rintro ⟨inner, name, child, hblock, hchild, hkind, hcomment⟩
    have hne : inner ≠ n := by
      rintro rfl
      exact halone ⟨name, child, hblock, hchild, hkind, hcomment⟩
    refine ⟨inner, name, child, by rwa [h.commented.payload_eq], ?_, hkind, hcomment⟩
    rw [h.commented.node_eq, hchild]
    simp [Except.map, hne]

/-- A module has the same imports with and without the comment. -/
theorem Remarked.moduleImports_eq (h : Remarked tree tree' n comment g g') {name : String}
    {nodes : List NodeId} (hid : tree.payload id = .ok (.module name nodes)) (hints : Bool) :
    moduleImports hints (nodes.map g') = moduleImports hints (nodes.map g) := by
  apply Imports.eq_of_has
  intro need
  rw [has_moduleImports h.cuts hid, has_moduleImports h.cuts' (h.commented.payload_eq.trans hid),
    h.commented.childOf_eq]
  simp only [h.commented.uses_iff]

theorem Remarked.exists_terms (h : Remarked tree tree' n comment g g') {p : Payload NodeId}
    (hr : tree.payload r = .ok p) :
    ∃ info info', g r = .node info (p.map g) ∧ g' r = .node info' (p.map g') := by
  obtain ⟨node, hnode, rfl⟩ := Tree.payload_eq_ok_iff.mp hr
  exact ⟨_, _, h.cuts.node_eq hnode, h.commented.cut_eq h.cuts' hnode⟩

/-- A node that is no block and no conditional differs wherever its lines do. -/
theorem differs_of_kind {kind : Kind} (hg : tree.Cuts g) (hr : tree.HasKind kind r)
    (hinline : isInline kind = false) (hconditional : kind ≠ .conditional) (hblock : kind ≠ .block)
    (hinserted : ∃ above, Inserted marks first above (outline hints (g r)) (outline hints (g' r))) :
    Differs tree n hints marks first g g' r := by
  obtain ⟨above, habove⟩ := hinserted
  refine ⟨not_isInline hr hinline, above, habove, fun hother => ?_, fun helif => ?_⟩
  · exact absurd (Except.ok.inj (hr.symm.trans hother)) hconditional
  · rw [isElif_of_hasKind hg hr hblock] at helif
    cases helif

/-- Below a header, remarks stand below the first line. -/
theorem differs_of_head (hr : ¬ tree.IsInline r)
    (hinserted : ∃ line lines, Inserted marks first (line :: lines) (outline hints (g r))
      (outline hints (g' r))) :
    Differs tree n hints marks first g g' r := by
  obtain ⟨line, lines, hlines⟩ := hinserted
  exact ⟨hr, line :: lines, hlines, fun _ => List.cons_ne_nil _ _, fun _ _ => List.cons_ne_nil _ _⟩

/-- Where a statement differs, so does the block that lists it. -/
theorem Remarked.differs_block (h : Remarked tree tree' n comment g g') {name : String}
    {nodes : List NodeId} (hr : tree.payload r = .ok (.block name nodes)) (hc : c ∈ nodes)
    (hnodup : nodes.Nodup) (hsame : ∀ d ∈ nodes, d ≠ c → g' d = g d)
    (hput : StatementDiffers tree n hints marks first g g' c) :
    Differs tree n hints marks first g g' r := by
  have hkind := Tree.hasKind_of_payload hr
  obtain ⟨node, hnode, -⟩ := Tree.payload_eq_ok_iff.mp hr
  obtain ⟨above, habove, hconditional⟩ := hput
  obtain ⟨info, info', hbefore, hafter⟩ := h.exists_terms hr
  obtain ⟨lines, hlines⟩ := habove.block name hc hnodup hsame
  refine ⟨not_isInline hkind rfl, lines ++ above, ?_, fun hother => ?_, fun helif hnot => ?_⟩
  · rw [hbefore, hafter]
    exact hlines
  · cases Except.ok.inj (hkind.symm.trans hother)
  · obtain ⟨inner, hinner⟩ := (isElif_iff h.cuts hnode).mp helif
    obtain ⟨name, child, hblock, hchild, hconditionalKind, -⟩ := id hinner
    obtain rfl : nodes = [inner] := (Payload.block.inj (Except.ok.inj (hr.symm.trans hblock))).2
    obtain rfl := List.mem_singleton.mp hc
    have hne : c ≠ n := by
      rintro rfl
      exact hnot hinner
    exact List.append_ne_nil_of_right_ne_nil _
      (hconditional hne (map_eq_ok_iff.mpr ⟨child, hchild, hconditionalKind⟩))

/-- The children of a node on the path stay as they are, but for one. -/
theorem Remarked.siblings_eq (h : Remarked tree tree' n comment g g') {p : Payload NodeId}
    (hr : tree.payload r = .ok p) (hc : c ∈ p.children) (hpath : ReflTransGen tree.ChildOf n c) :
    ∀ d ∈ p.children, d ≠ c → g' d = g d := by
  intro d hd hne
  have hchild := h.cuts.linked.childOf_of_payload hr hc
  have hsibling := h.cuts.linked.childOf_of_payload hr hd
  exact h.commented.cut_off_path h.cuts h.cuts' hsibling.has
    (h.cuts.linked.not_below_both hchild hsibling hne.symm hpath)

/-- No child stands twice below a node, so the remarks are inserted once. -/
theorem Remarked.nodup_children (h : Remarked tree tree' n comment g g') {p : Payload NodeId}
    (hr : tree.payload r = .ok p) : p.children.Nodup := by
  obtain ⟨node, hnode, rfl⟩ := Tree.payload_eq_ok_iff.mp hr
  exact h.cuts.linked.nodup (Tree.slots_iff.mpr ⟨node, hnode, rfl⟩)

/-- Where a statement differs, so does the node that lists it. -/
theorem Remarked.differs_listed (h : Remarked tree tree' n comment g g') {p : Payload NodeId}
    (hr : tree.payload r = .ok p) (hc : c ∈ p.listed) (hpath : ReflTransGen tree.ChildOf n c)
    (hput : StatementDiffers tree n hints marks first g g' c) :
    Differs tree n hints marks first g g' r := by
  have hkind := Tree.hasKind_of_payload hr
  have hnodup := h.nodup_children hr
  have hsame := fun hc => h.siblings_eq hr hc hpath
  obtain ⟨info, info', hbefore, hafter⟩ := h.exists_terms hr
  cases p with
  | block => exact h.differs_block hr hc hnodup (hsame hc) hput
  | module name nodes =>
    obtain ⟨above, habove, -⟩ := hput
    obtain ⟨lines, hlines⟩ :=
      habove.moduleNode name hc hnodup (hsame hc) (h.moduleImports_eq hr hints)
    refine differs_of_kind h.cuts hkind rfl nofun nofun ⟨lines ++ above, ?_⟩
    rw [hbefore, hafter]
    exact hlines
  | classDef header bases decorators attributes methods =>
    obtain ⟨above, habove, -⟩ := hput
    have hlist : (Payload.classDef header bases decorators attributes methods).children =
        (bases ++ decorators) ++ (attributes ++ methods) := List.append_assoc ..
    rw [hlist] at hnodup hsame
    obtain ⟨-, hmembers, hdisjoint⟩ := List.nodup_append.mp hnodup
    have hmember : c ∈ attributes ++ methods := hc
    have hsame := hsame (List.mem_append_right _ hmember)
    have hhead : ∀ d ∈ bases ++ decorators, g' d = g d := fun d hd =>
      hsame d (List.mem_append_left _ hd) (hdisjoint d hd c hmember)
    obtain ⟨hbases, hdecorators⟩ := List.forall_mem_append.mp hhead
    refine differs_of_kind h.cuts hkind rfl nofun nofun ?_
    rw [hbefore, hafter, Payload.map, Payload.map, List.map_congr_left hbases,
      List.map_congr_left hdecorators]
    exact habove.classDef header _ _ hmember hmembers fun d hd hne =>
      hsame d (List.mem_append_right _ hd) hne
  | _ => cases hc

/-- On a path through the body of a node, its other children stay as they are. -/
theorem Remarked.heads_eq (h : Remarked tree tree' n comment g g') {p : Payload NodeId}
    (hr : tree.payload r = .ok p) (hpath : ReflTransGen tree.ChildOf n c) {heads : List NodeId}
    (hlist : p.children = heads ++ [c]) : ∀ d ∈ heads, g' d = g d := by
  have hnodup := h.nodup_children hr
  have hsame : ∀ d ∈ p.children, d ≠ c → g' d = g d :=
    h.siblings_eq hr (by simp [hlist]) hpath
  rw [hlist] at hnodup hsame
  obtain ⟨-, -, hdisjoint⟩ := List.nodup_append.mp hnodup
  intro d hd
  exact hsame d (List.mem_append_left _ hd) (hdisjoint d hd c (List.mem_singleton_self c))

/-- Where a block of a conditional differs, so does the conditional. -/
theorem Remarked.differs_conditional (h : Remarked tree tree' n comment g g')
    {condition consequent : NodeId} {alternative : Option NodeId}
    (hr : tree.payload r = .ok (.conditional condition consequent alternative))
    (hpath : ReflTransGen tree.ChildOf n c) (hdeep : Differs tree n hints marks first g g' c)
    (hc : c ∈ consequent :: alternative.toList)
    (halone : c ∈ alternative → ¬ HoldsConditional tree c n) :
    Differs tree n hints marks first g g' r := by
  obtain ⟨above, habove, -, helif⟩ := hdeep.exists_above
  obtain ⟨info, info', hbefore, hafter⟩ := h.exists_terms hr
  have hsame := h.siblings_eq hr (List.mem_cons_of_mem condition hc) hpath
  have hnodup : (condition :: consequent :: alternative.toList).Nodup := h.nodup_children hr
  obtain ⟨hcondition, hnodup⟩ := List.nodup_cons.mp hnodup
  obtain ⟨hnot, -⟩ := List.nodup_cons.mp hnodup
  have hne : condition ≠ c := by
    rintro rfl
    exact hcondition hc
  refine differs_of_head (not_isInline (Tree.hasKind_of_payload hr) rfl) ?_
  rw [hbefore, hafter, Payload.map, Payload.map, hsame condition List.mem_cons_self hne]
  -- The path goes through one of the two blocks.
  rcases List.mem_cons.mp hc with rfl | hc
  · have halternative : alternative.map g' = alternative.map g := by
      refine Option.map_congr fun b hb => hsame b ?_ ?_
      · simp [Payload.children, hb]
      · rintro rfl
        exact hnot (Option.mem_toList.mpr hb)
    rw [halternative]
    exact habove.consequent _ _
  · have hconsequent : g' consequent = g consequent := by
      refine hsame consequent (by simp [Payload.children]) ?_
      rintro rfl
      exact hnot hc
    obtain rfl := Option.mem_toList.mp hc
    have hblock : tree.Has c :=
      (h.cuts.linked.childOf_of_payload hr (by simp [Payload.children])).has
    rw [hconsequent, Option.map_some, Option.map_some]
    exact habove.alternative (h.isElif_eq hblock (halone rfl))
      (fun hchain => helif hchain (halone rfl)) _ _

/-- Where the body of a node differs, so does the node. -/
theorem Remarked.differs_slot (h : Remarked tree tree' n comment g g') {p : Payload NodeId}
    (hr : tree.payload r = .ok p) (hc : Tree.IsBody c p) (hpath : ReflTransGen tree.ChildOf n c)
    (hdeep : Differs tree n hints marks first g g' c)
    (halone : ∀ {condition consequent}, p = .conditional condition consequent (some c) →
      ¬ HoldsConditional tree c n) :
    Differs tree n hints marks first g g' r := by
  have hkind := Tree.hasKind_of_payload hr
  have hheads : ∀ {heads}, p.children = heads ++ [c] → ∀ d ∈ heads, g' d = g d :=
    h.heads_eq hr hpath
  obtain ⟨info, info', hbefore, hafter⟩ := h.exists_terms hr
  obtain ⟨above, habove, -⟩ := hdeep.exists_above
  cases hc with
  | @function head =>
    have hsame : ∀ d ∈ [head], g' d = g d := hheads rfl
    refine differs_of_head (not_isInline hkind rfl) ?_
    rw [hbefore, hafter, Payload.map, Payload.map, hsame head List.mem_cons_self]
    exact habove.function _
  | @whileLoop condition =>
    have hsame : ∀ d ∈ [condition], g' d = g d := hheads rfl
    refine differs_of_head (not_isInline hkind rfl) ?_
    rw [hbefore, hafter, Payload.map, Payload.map, hsame condition List.mem_cons_self]
    exact habove.whileLoop _
  | @forLoop target iterable conditions =>
    have hsame : ∀ d ∈ target :: iterable :: conditions, g' d = g d := hheads rfl
    obtain ⟨htarget, hsame⟩ := List.forall_mem_cons.mp hsame
    obtain ⟨hiterable, hconditions⟩ := List.forall_mem_cons.mp hsame
    refine differs_of_head (not_isInline hkind rfl) ?_
    rw [hbefore, hafter, Payload.map, Payload.map, htarget, hiterable,
      List.map_congr_left hconditions]
    exact habove.forLoop _ _ _
  | @rangeLoop counter start stop step =>
    have hsame : ∀ d ∈ counter :: start :: stop :: step.toList, g' d = g d := hheads rfl
    obtain ⟨hcounter, hsame⟩ := List.forall_mem_cons.mp hsame
    obtain ⟨hstart, hsame⟩ := List.forall_mem_cons.mp hsame
    obtain ⟨hstop, hstep⟩ := List.forall_mem_cons.mp hsame
    have hstep : step.map g' = step.map g :=
      Option.map_congr fun s hs => hstep s (Option.mem_toList.mpr hs)
    refine differs_of_head (not_isInline hkind rfl) ?_
    rw [hbefore, hafter, Payload.map, Payload.map, hcounter, hstart, hstop, hstep]
    exact habove.rangeLoop _ _ _ _
  | conditional hc =>
    refine h.differs_conditional hr hpath hdeep hc fun halternative => ?_
    obtain rfl := halternative
    exact halone rfl

end Path

/-- A statement of a block, a module or the body of a class. -/
def IsListed (tree : Tree) (n : NodeId) : Prop :=
  ∃ r p, tree.payload r = .ok p ∧ n ∈ p.listed

/-- Remarks on a statement differ the lines of every node that holds it. -/
theorem Remarked.differs (h : Remarked tree tree' n comment g g') (hlisted : IsListed tree n)
    (halone : ∀ {r condition consequent block},
      tree.payload r = .ok (.conditional condition consequent (some block)) →
      ¬ HoldsConditional tree block n)
    (hreturns : ∀ line ∈ Text.lines comment.toList, '\r' ∉ line.dropLast)
    (hopens : Opens 0 first (outline hints (g n))) {r : NodeId} (hr : TransGen tree.ChildOf n r) :
    Differs tree n hints (marksOf comment) first g g' r := by
  -- Up the path: first the node that lists the statement, then what holds that node.
  induction hr with
  | single hr =>
    obtain ⟨p, payload, hp, hn⟩ := hlisted
    have hparent := h.cuts.linked.childOf_of_payload hp (Payload.mem_children_of_mem_listed hn)
    obtain rfl := Tree.rightUnique_childOf tree hparent hr
    exact h.differs_listed hp hn ReflTransGen.refl (h.statement_self hreturns hopens)
  | @tail c r hpath hr ih =>
    obtain ⟨p, hp, hc⟩ := h.cuts.linked.exists_payload hr
    have hne : c ≠ n := by
      rintro rfl
      exact h.cuts.linked.acyclic _ hpath
    by_cases hlist : c ∈ p.listed
    · exact h.differs_listed hp hlist hpath.to_reflTransGen (h.statement_of_differs hr.has hne ih)
    · have hbody := (h.cuts.wellFormed r p hp).isBody hc hlist ih.not_inline
      refine h.differs_slot hp hbody hpath.to_reflTransGen ih ?_
      rintro condition consequent rfl
      exact halone hp

/-! ## After every run -/

/-- A conditional that is all that an alternative holds. -/
def StandsAlone (tree : Tree) (n : NodeId) : Prop :=
  tree.HasKind .conditional n ∧ ∃ r condition consequent block name,
    tree.payload r = .ok (.conditional condition consequent (some block)) ∧
      tree.payload block = .ok (.block name [n])

/-- The tree of a run after one more comment. -/
def commentedTree (actions : List Workspace.Action) (i : Nat) (n : NodeId) (comment : String) :
    Tree :=
  (Workspace.run (actions ++ [.setComment i n comment])).tree i

/-- One more call sets the comment and leaves everything else. -/
theorem commented_run (actions : List Workspace.Action) {i : Nat}
    (hn : ((Workspace.run actions).tree i).Has n) (comment : String) :
    ((Workspace.run actions).tree i).Commented (commentedTree actions i n comment) n comment := by
  have hi := Workspace.lt_size_of_has hn
  have heffect := Workspace.effect_perform (Workspace.numbered_run actions)
    (.setComment i n comment)
  rw [commentedTree, Workspace.run_concat]
  generalize ((Workspace.run actions).perform (.setComment i n comment)).1 = outcome at heffect
  generalize ((Workspace.run actions).perform (.setComment i n comment)).2 = after at heffect ⊢
  cases heffect with
  | unknown hknown => simp [Workspace.knows, hi] at hknown
  | uncommented hnot => exact absurd hn hnot
  | commented hcommented =>
      rw [Workspace.tree_withTree hi, if_pos rfl]
      exact hcommented

theorem legible_commented (h : tree.Commented tree' n comment) (hlegible : tree.Legible False) :
    tree'.Legible False where
  names := by
    intro id node hnode
    rw [h.node_eq] at hnode
    obtain ⟨node, hold, rfl⟩ := map_eq_ok_iff.mp hnode
    have hpayload : (if id = n then { node with comment } else node).payload = node.payload := by
      split <;> rfl
    rw [hpayload]
    exact hlegible.names hold
  comments := fun _ hfalse => hfalse.elim

theorem closed_toList {out : String} (h : out ≠ "") (kind : Kind) :
    (closed kind out).toList = out.toList ++ if kind = .module then ['\n'] else [] := by
  unfold closed
  split
  · next hkind => simp [hkind.1]
  · next hkind =>
    have hkind : kind ≠ .module := fun he => hkind ⟨he, h⟩
    simp [hkind]

/-- The first line of a text is that of its first line. -/
theorem sourceLines_print {s : String} (hs : '\n' ∉ s.toList) (width : Nat) (rest : List Line) :
    ∃ others, sourceLines (print width (⟨0, s⟩ :: rest)).toList =
      s.toList.takeWhile (· ≠ '\r') :: others := by
  have hnone : ∀ c ∈ ([] : List Char).head?, c = '\n' := nofun
  obtain ⟨lower, hlower, hcut⟩ := exists_lower width ⟨0, s⟩ rest hnone
  rw [List.append_nil, Line.indented_zero] at hcut
  rw [hcut]
  exact exists_sourceLines hs hlower

/-- A node has a rendering, and its lines open as the rendering does. -/
theorem opens_of_render (hg : tree.Cuts g) (hlegible : tree.Legible False) (hn : tree.Has n)
    (hmodule : ¬ tree.HasKind .module n) (writer : Writer) :
    ∃ own first others, (writer.render tree n).1 = .ok own ∧
      sourceLines own.toList = first :: others ∧
      (first ≠ [] → Opens 0 first (outline writer.options.typeHints (g n))) := by
  obtain ⟨node, hnode⟩ := Tree.has_iff.mp hn
  have hkind : node.kind ≠ .module := fun hkind =>
    hmodule (map_eq_ok_iff.mpr ⟨node, hnode, hkind⟩)
  have hlaid := (hg.printable hlegible hn hmodule).laid writer.options.indent
    writer.options.typeHints
  obtain ⟨s, rest, hlines⟩ := hlaid.head
  have hwhole := hlaid.whole
  rw [hlines] at hwhole
  have hs : '\n' ∉ s.toList := (hwhole _ List.mem_cons_self).notMem
  obtain ⟨others, hcut⟩ := sourceLines_print hs writer.options.indent rest
  refine ⟨_, _, others, render_outline hg hlegible hnode writer, ?_, fun hne =>
    ⟨⟨⟨0, s⟩, rest, hlines, rfl, hs, rfl⟩, hne⟩⟩
  rw [closed, if_neg fun h => hkind h.1, hlines, hcut]

/-- Where the lines of a node differ in remarks, so do those of its rendering. -/
theorem Remarked.rendered (h : Remarked tree tree' n comment g g') (hlegible : tree.Legible False)
    (hid : tree.Has id) {writer : Writer}
    (hdiffers : Differs tree n writer.options.typeHints marks first g g' id) :
    ∃ before after top margin rest,
      (writer.render tree id).1 = .ok before ∧ (writer.render tree' id).1 = .ok after ∧
      (∀ c ∈ margin, c = ' ') ∧
      sourceLines before.toList = top ++ (margin ++ first) :: rest ∧
      sourceLines after.toList = top ++ (marks.map (margin ++ ·) ++ (margin ++ first) :: rest) := by
  obtain ⟨node, hnode⟩ := Tree.has_iff.mp hid
  obtain ⟨node', hnode', hkind⟩ : ∃ node', tree'.node id = .ok node' ∧ node'.kind = node.kind := by
    rw [h.commented.node_eq, hnode]
    refine ⟨_, rfl, ?_⟩
    split <;> rfl
  obtain ⟨above, habove, -⟩ := hdiffers.exists_above
  obtain ⟨hbefore, hafter⟩ := habove.print_ne_empty writer.options.indent
  have hclosing : ∀ c ∈ (if node.kind = .module then ['\n'] else []).head?, c = '\n' := by
    split <;> simp
  obtain ⟨top, margin, rest, hmargin, hlines, hlines'⟩ :=
    habove.exists_sourceLines writer.options.indent hclosing
  refine ⟨_, _, top, margin, rest, render_outline h.cuts hlegible hnode writer,
    render_outline h.cuts' (legible_commented h.commented hlegible) hnode' writer, hmargin, ?_, ?_⟩
  · rw [closed_toList hbefore, hlines]
  · rw [hkind, closed_toList hafter, hlines']

/-- A comment on a statement puts lines in above it, in whatever holds the statement after a
run: they are as deep as its first line, if that is not empty, and begin with a number sign. -/
theorem comment_run (actions : List Workspace.Action) (i : Nat) (n r : NodeId)
    (comment : String) (writer : Writer)
    (hnames : ∀ node ∈ ((Workspace.run actions).tree i).nodes,
      ∀ name ∈ ownName? node.payload, Clean name)
    (hlisted : IsListed ((Workspace.run actions).tree i) n)
    (halone : ¬ StandsAlone ((Workspace.run actions).tree i) n)
    (hr : TransGen ((Workspace.run actions).tree i).ChildOf n r)
    (hreturns : ∀ line ∈ Text.lines comment.toList, '\r' ∉ line.dropLast) :
    ∃ own first others, (writer.render ((Workspace.run actions).tree i) n).1 = .ok own ∧
      sourceLines own.toList = first :: others ∧
      (first ≠ [] → ∃ before after top margin rest,
        (writer.render (commentedTree actions i n "") r).1 = .ok before ∧
        (writer.render (commentedTree actions i n comment) r).1 = .ok after ∧
        (∀ c ∈ margin, c = ' ') ∧
        sourceLines before.toList = top ++ (margin ++ first) :: rest ∧
        sourceLines after.toList =
          top ++ ((marksOf comment).map (margin ++ ·) ++ (margin ++ first) :: rest)) := by
  obtain ⟨g, hg⟩ := Tree.cuts_run actions i
  obtain ⟨g₀, hg₀⟩ := Tree.cuts_run (actions ++ [.setComment i n ""]) i
  obtain ⟨g₁, hg₁⟩ := Tree.cuts_run (actions ++ [.setComment i n comment]) i
  obtain ⟨holder, p, hholder, hn⟩ := hlisted
  have hchild := Payload.mem_children_of_mem_listed hn
  have hhas := (hg.linked.childOf_of_payload hholder hchild).has
  have hcleared := commented_run actions hhas ""
  have hremarked : Remarked (commentedTree actions i n "") (commentedTree actions i n comment) n
      comment g₀ g₁ := by
    refine ⟨hcleared.trans (commented_run actions hhas comment), hg₀, hg₁, fun node hnode => ?_⟩
    rw [hcleared.node_eq] at hnode
    obtain ⟨node, -, rfl⟩ := map_eq_ok_iff.mp hnode
    rw [if_pos rfl]
  have hlegible : ((Workspace.run actions).tree i).Legible False :=
    ⟨fun hnode name hname => ⟨hnames _ (Tree.mem_nodes hnode) name hname, False.elim⟩,
      fun _ => False.elim⟩
  have hmodule := (hg.wellFormed holder _ hholder).not_module n hchild
  obtain ⟨own, first, others, hown, hfirst, hopens⟩ :=
    opens_of_render hg hlegible hhas hmodule writer
  refine ⟨own, first, others, hown, hfirst, fun hne => ?_⟩
  -- the statement opens in the same way without its old comment
  have hopens := hopens hne
  rw [← outline_commented hcleared hg hg₀] at hopens
  have hpath : TransGen (commentedTree actions i n "").ChildOf n r := by rwa [hcleared.childOf_eq]
  refine hremarked.rendered (legible_commented hcleared hlegible) (hg₀.linked.has_above hpath)
    (hremarked.differs ⟨holder, p, hcleared.payload_eq.trans hholder, hn⟩ ?_ hreturns hopens hpath)
  rintro alternative condition consequent block hpayload ⟨name, node, hblock, hnode, hkind, -⟩
  rw [hcleared.payload_eq] at hpayload hblock
  have hconditional : (commentedTree actions i n "").HasKind .conditional n :=
    map_eq_ok_iff.mpr ⟨node, hnode, hkind⟩
  rw [Tree.HasKind, hcleared.kind_eq] at hconditional
  exact halone ⟨hconditional, alternative, condition, consequent, block, name, hpayload, hblock⟩

/-- A run that builds a loop in a module. -/
def waiting : List Workspace.Action :=
  [.newTree,
    .build 0 (.variable "step" .any),
    .build 0 (.variable "more" .boolean),
    .build 0 (.block "body" [⟨0, 0⟩]),
    .build 0 (.whileLoop ⟨0, 1⟩ ⟨0, 2⟩),
    .build 0 (.module "main" [⟨0, 3⟩])]

/-- A comment of two lines on a statement in the body of a loop is as deep as the statement. -/
theorem comment_waiting :
    let tree := (Workspace.run waiting).tree 0
    let writer := Writer.new ⟨2, true⟩
    (∀ node ∈ tree.nodes, ∀ name ∈ ownName? node.payload, Clean name) ∧
      IsListed tree ⟨0, 0⟩ ∧ ¬ StandsAlone tree ⟨0, 0⟩ ∧ TransGen tree.ChildOf ⟨0, 0⟩ ⟨0, 4⟩ ∧
      ∃ before after top margin rest,
        (writer.render (commentedTree waiting 0 ⟨0, 0⟩ "") ⟨0, 4⟩).1 = .ok before ∧
        (writer.render (commentedTree waiting 0 ⟨0, 0⟩ "one\r\ntwo") ⟨0, 4⟩).1 = .ok after ∧
        (∀ c ∈ margin, c = ' ') ∧
        sourceLines before.toList = top ++ (margin ++ "step".toList) :: rest ∧
        sourceLines after.toList = top ++ (["# one".toList, "# two".toList].map (margin ++ ·) ++
          (margin ++ "step".toList) :: rest) := by
  have hnames : ∀ node ∈ ((Workspace.run waiting).tree 0).nodes,
      ∀ name ∈ ownName? node.payload, Clean name := by decide +kernel
  have hlisted : IsListed ((Workspace.run waiting).tree 0) ⟨0, 0⟩ :=
    ⟨⟨0, 2⟩, .block "body" [⟨0, 0⟩], rfl, List.mem_singleton_self _⟩
  have halone : ¬ StandsAlone ((Workspace.run waiting).tree 0) ⟨0, 0⟩ := by
    rintro ⟨hkind, -⟩
    have hvariable : ((Workspace.run waiting).tree 0).HasKind .variable ⟨0, 0⟩ := rfl
    cases Except.ok.inj (hkind.symm.trans hvariable)
  have hpath : TransGen ((Workspace.run waiting).tree 0).ChildOf ⟨0, 0⟩ ⟨0, 4⟩ := by
    have hbody : ((Workspace.run waiting).tree 0).ChildOf ⟨0, 0⟩ ⟨0, 2⟩ := rfl
    have hloop : ((Workspace.run waiting).tree 0).ChildOf ⟨0, 2⟩ ⟨0, 3⟩ := rfl
    have hmodule : ((Workspace.run waiting).tree 0).ChildOf ⟨0, 3⟩ ⟨0, 4⟩ := rfl
    exact ((TransGen.single hbody).tail hloop).tail hmodule
  obtain ⟨own, first, others, hown, hfirst, hput⟩ := comment_run waiting 0 ⟨0, 0⟩ ⟨0, 4⟩
    "one\r\ntwo" (Writer.new ⟨2, true⟩) hnames hlisted halone hpath (by decide)
  have hstep : ((Writer.new ⟨2, true⟩).render ((Workspace.run waiting).tree 0) ⟨0, 0⟩).1 =
      .ok "step" := by decide +kernel
  have hcut : sourceLines "step".toList = ["step".toList] := by decide
  obtain rfl := Except.ok.inj (hown.symm.trans hstep)
  obtain rfl := (List.cons.inj (hfirst.symm.trans hcut)).1
  exact ⟨hnames, hlisted, halone, hpath, hput (by decide)⟩

/-- Lines of a comment end at line feeds alone: behind a carriage return a comment goes on
as code. -/
theorem comment_return :
    let actions : List Workspace.Action :=
      [.newTree, .build 0 (.variable "x" .any), .build 0 (.module "main" [⟨0, 0⟩])]
    (∀ node ∈ ((Workspace.run actions).tree 0).nodes, ∀ name ∈ ownName? node.payload,
        Clean name) ∧
      IsListed ((Workspace.run actions).tree 0) ⟨0, 0⟩ ∧
      ((Writer.new ⟨2, true⟩).render (commentedTree actions 0 ⟨0, 0⟩ "") ⟨0, 1⟩).1 = .ok "x\n" ∧
      ((Writer.new ⟨2, true⟩).render (commentedTree actions 0 ⟨0, 0⟩ "note\rimport os") ⟨0, 1⟩).1 =
        .ok "# note\rimport os\nx\n" ∧
      ¬ ∃ top margin put rest,
        sourceLines "x\n".toList = top ++ (margin ++ "x".toList) :: rest ∧
        sourceLines "# note\rimport os\nx\n".toList =
          top ++ (put ++ (margin ++ "x".toList) :: rest) ∧
        ∀ line ∈ put, ∃ text, line = margin ++ '#' :: text := by
  refine ⟨by decide +kernel, ?_, by decide +kernel, by decide +kernel, ?_⟩
  · exact ⟨⟨0, 1⟩, .module "main" [⟨0, 0⟩], rfl, List.mem_singleton_self _⟩
  · rintro ⟨top, margin, put, rest, hbefore, hafter, hput⟩
    have hcode : "import os".toList ∈ sourceLines "# note\rimport os\nx\n".toList := by decide
    have hold : "import os".toList ∉ sourceLines "x\n".toList := by decide
    rw [hafter] at hcode
    rw [hbefore] at hold
    simp only [List.mem_append, List.mem_cons, not_or] at hcode hold
    obtain ⟨text, htext⟩ := hput _ ((hcode.resolve_left hold.1).resolve_right
      (not_or.mpr hold.2))
    have hsign : '#' ∈ "import os".toList := by
      rw [htext]
      exact List.mem_append_right _ List.mem_cons_self
    revert hsign
    decide

end Python

end TypedSyntax
