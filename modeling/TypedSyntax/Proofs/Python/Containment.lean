import TypedSyntax.Proofs.Python.Standing
import TypedSyntax.Proofs.Tree.Method

/-!
# Texts of the nodes around a function

What the text of a node shows is contained in the text of every node that holds it,
indented once for each body in between. The step is one case for each kind of node.
-/

namespace TypedSyntax.Python

open Relation

variable {tree : Tree} {r c : NodeId} {g : NodeId → Term} {options : PythonOptions}
  {s : String} {p : Payload NodeId}

/-- A node that holds blocks and whose text shows the rows of another one. In a conditional,
and in a block that goes on after `el`, they stand below the first row. -/
structure Shows (tree : Tree) (g : NodeId → Term) (options : PythonOptions) (s : String)
    (c : NodeId) : Prop where
  not_inline : ¬ tree.IsInline c
  stands : Ensures (text options (g c)) (Stands 0 s)
  below : tree.HasKind .conditional c ∨ isElif (g c) = true →
    Ensures (text options (g c)) (Stands 1 s)

/-- Rows below the first one are shown by a node of every kind that holds blocks. -/
theorem shows_of_below {kind : Kind} (hr : tree.HasKind kind r) (hkind : isInline kind = false)
    (h : Ensures (text options (g r)) (Stands 1 s)) : Shows tree g options s r :=
  ⟨not_isInline hr hkind, h.mono fun _ => Stands.zero, fun _ => h⟩

theorem shows_of_kind {kind : Kind} (hg : tree.Cuts g) (hr : tree.HasKind kind r)
    (hinline : isInline kind = false) (hblock : kind ≠ .block) (hconditional : kind ≠ .conditional)
    (h : Ensures (text options (g r)) (Stands 0 s)) : Shows tree g options s r := by
  refine ⟨not_isInline hr hinline, h, ?_⟩
  rintro (hother | helif)
  · exact absurd (Except.ok.inj (hr.symm.trans hother)) hconditional
  · rw [isElif_of_hasKind hg hr hblock] at helif
    cases helif

/-- A node whose text shows the rows of another one, indented some number of times. -/
def Contains (tree : Tree) (g : NodeId → Term) (options : PythonOptions) (s : String)
    (r : NodeId) : Prop :=
  ∃ depth, Shows tree g options ((indentLines options)^[depth] s) r

theorem Shows.contains (h : Shows tree g options s r) : Contains tree g options s r :=
  ⟨0, h⟩

theorem Contains.of_indent (h : Contains tree g options (indentLines options s) r) :
    Contains tree g options s r := by
  obtain ⟨depth, h⟩ := h
  rw [← Function.iterate_succ_apply] at h
  exact ⟨depth + 1, h⟩

/-- A body stands one margin deeper. -/
theorem contains_of_body {kind : Kind} (hr : tree.HasKind kind r) (hkind : isInline kind = false)
    (h : Ensures (text options (g r)) (Stands 1 (indentLines options s))) :
    Contains tree g options s r :=
  (shows_of_below hr hkind h).contains.of_indent

/-- The text of a node from those of its children. -/
theorem exists_text_cut (options : PythonOptions) (hg : tree.Cuts g) (hr : tree.payload r = .ok p) :
    ∃ info, text options (g r) = nodeText options info (p.map (partOf g options)) := by
  obtain ⟨node, hnode, rfl⟩ := Tree.payload_eq_ok_iff.mp hr
  exact ⟨_, text_cut hg hnode⟩

/-- A body shows the rows of its block, indented. -/
theorem Shows.body (h : Shows tree g options s c) (hs : Sealed s) :
    Ensures (body options (partOf g options c)) (Stands 0 (indentLines options s)) :=
  h.stands.bind fun _ ht => ensures_pure (ht.indent hs)

/-- A block shows what its statements show. -/
theorem Shows.block (hg : tree.Cuts g) {name : String} {nodes : List NodeId}
    (hr : tree.payload r = .ok (.block name nodes)) (hc : c ∈ nodes)
    (h : Shows tree g options s c) : Shows tree g options s r := by
  have hkind : tree.HasKind .block r := Tree.hasKind_of_payload hr
  have hstatements : ∀ {n}, Ensures (text options (g c)) (Stands n s) →
      Ensures (text options (g r)) (Stands n s) := by
    intro n hstands
    obtain ⟨info, htext⟩ := exists_text_cut options hg hr
    have hne : (nodes.map (partOf g options)).isEmpty = false := by
      simpa using List.ne_nil_of_mem hc
    have hpart : partOf g options c ∈ nodes.map (partOf g options) := List.mem_map_of_mem hc
    rw [htext, Payload.map, nodeText, writeBlock, hne]
    exact (ensures_statements hpart hstands).bind fun _ => ensures_pure
  refine ⟨not_isInline hkind rfl, hstatements h.stands, ?_⟩
  rintro (hconditional | helif)
  · cases Except.ok.inj (hkind.symm.trans hconditional)
  · obtain ⟨node, hnode, -⟩ := Tree.payload_eq_ok_iff.mp hr
    obtain ⟨inner, name', child, hblock, hchild, hconditional, -⟩ := (isElif_iff hg hnode).mp helif
    obtain rfl : nodes = [inner] := (Payload.block.inj (Except.ok.inj (hr.symm.trans hblock))).2
    obtain rfl := List.mem_singleton.mp hc
    exact hstatements (h.below (.inl (map_eq_ok_iff.mpr ⟨child, hchild, hconditional⟩)))

/-- A module shows what its statements show. -/
theorem Shows.moduleNode (hg : tree.Cuts g) {name : String} {nodes : List NodeId}
    (hr : tree.payload r = .ok (.module name nodes)) (hc : c ∈ nodes) (hs : Sealed s)
    (h : Shows tree g options s c) : Shows tree g options s r := by
  have hkind : tree.HasKind .module r := Tree.hasKind_of_payload hr
  obtain ⟨info, htext⟩ := exists_text_cut options hg hr
  have hpart : partOf g options c ∈ nodes.map (partOf g options) := List.mem_map_of_mem hc
  apply shows_of_kind hg hkind rfl nofun nofun
  rw [htext]
  exact (ensures_true _).bind fun _ _ => (ensures_statements hpart h.stands).bind fun _ ht =>
    (ensures_true _).bind fun imports _ => ensures_pure (ht.below_imports hs imports)

/-- A class shows what its methods show, indented. -/
theorem Shows.method (hg : tree.Cuts g) (hr : tree.ListsMethod r c) (hs : Sealed s)
    (h : Shows tree g options s c) : Shows tree g options (indentLines options s) r := by
  obtain ⟨header, bases, decorators, attributes, methods, hr, hc⟩ := hr
  obtain ⟨info, htext⟩ := exists_text_cut options hg hr
  have hpart : partOf g options c ∈ methods.map (partOf g options) := List.mem_map_of_mem hc
  apply shows_of_below (Tree.hasKind_of_payload hr) rfl
  rw [htext]
  refine (ensures_true _).bind fun head _ => (ensures_true _).bind fun fields _ =>
    (ensures_mapM_mem hpart (ensures_statement h.stands)).bind fun texts ht => ensures_pure ?_
  obtain ⟨t, ht, hstands⟩ := ht
  exact ((hstands.among (mem_members ht)).indent hs).headed head

/-- A list of statements shows what one of them shows. -/
theorem Shows.listed (hg : tree.Cuts g) (hr : tree.payload r = .ok p) (hc : c ∈ p.listed)
    (hs : Sealed s) (h : Shows tree g options s c) :
    Contains tree g options s r := by
  have hfits := hg.wellFormed r _ hr
  cases hfits with
  | block => exact (h.block hg hr hc).contains
  | module => exact (h.moduleNode hg hr hc hs).contains
  | @classDef header bases decorators attributes methods _ hattributes =>
      rcases List.mem_append.mp hc with hmem | hmem
      · exact absurd ((hattributes c hmem).isInline rfl) h.not_inline
      · exact (h.method hg ⟨_, _, _, _, _, hr, hmem⟩ hs).contains.of_indent
  | _ => cases hc

/-- An alternative begins on a new line, if there is one. -/
theorem ensures_writeElse (alternative : Option Part) :
    Ensures (writeElse options alternative) fun last =>
      last = "" ∨ ∃ rest, last = "\n" ++ rest := by
  cases alternative with
  | none => exact ensures_pure (.inl rfl)
  | some block =>
      have hfeed : ∀ u t : String, "\n" ++ u ++ t = "\n" ++ (u ++ t) :=
        fun u t => String.append_assoc ..
      rw [writeElse]
      split
      · exact (ensures_true _).bind fun t _ => ensures_pure (.inr ⟨_, hfeed "el" t⟩)
      · exact (ensures_true _).bind fun t _ => ensures_pure (.inr ⟨_, hfeed "else:\n" t⟩)

/-- A conditional shows what one of its blocks shows. -/
theorem Shows.conditional (hg : tree.Cuts g) {condition consequent : NodeId}
    {alternative : Option NodeId}
    (hr : tree.payload r = .ok (.conditional condition consequent alternative))
    (hc : c ∈ consequent :: alternative.toList) (hs : Sealed s) (h : Shows tree g options s c) :
    Contains tree g options s r := by
  have hkind : tree.HasKind .conditional r := Tree.hasKind_of_payload hr
  obtain ⟨info, htext⟩ := exists_text_cut options hg hr
  rcases List.mem_cons.mp hc with rfl | hc
  · refine contains_of_body hkind rfl ?_
    rw [htext]
    refine (ensures_true _).bind fun words _ => (h.body hs).bind fun t ht => ?_
    exact (ensures_writeElse _).bind fun last hlast =>
      ensures_pure ((ht.under ("if " ++ words)).before hlast)
  · obtain rfl := Option.mem_toList.mp hc
    cases helif : isElif (g c) with
    | true =>
        refine (shows_of_below hkind rfl ?_).contains
        rw [htext]
        refine (ensures_true _).bind fun words _ => (ensures_true _).bind fun first _ => ?_
        dsimp only
        rw [Option.map_some, writeElse, partOf, if_pos helif]
        exact (h.below (.inr helif)).bind fun t ht => ensures_pure (ht.resumed_below _)
    | false =>
        apply contains_of_body hkind rfl
        rw [htext]
        refine (ensures_true _).bind fun words _ => (ensures_true _).bind fun first _ => ?_
        dsimp only
        rw [Option.map_some, writeElse, partOf, if_neg (by simp [helif])]
        exact (h.body hs).bind fun t ht => ensures_pure (ht.otherwise _)

/-- A node shows what its body shows. -/
theorem Shows.slot (hg : tree.Cuts g) (hr : tree.payload r = .ok p) (hc : Tree.IsBody c p)
    (hs : Sealed s) (h : Shows tree g options s c) : Contains tree g options s r := by
  have hkind : tree.HasKind p.kind r := Tree.hasKind_of_payload hr
  obtain ⟨info, htext⟩ := exists_text_cut options hg hr
  cases hc with
  | function =>
      apply contains_of_body hkind rfl
      rw [htext]
      exact (ensures_true _).bind fun header _ => (h.body hs).bind fun _ ht =>
        ensures_pure (ht.under header)
  | whileLoop =>
      apply contains_of_body hkind rfl
      rw [htext]
      exact (ensures_true _).bind fun words _ => (h.body hs).bind fun _ ht =>
        ensures_pure (ht.under ("while " ++ words))
  | @forLoop target iterable conditions =>
      cases conditions with
      | nil =>
          apply contains_of_body hkind rfl
          rw [htext]
          exact (ensures_true _).bind fun names _ => (ensures_true _).bind fun words _ =>
            (h.body hs).bind fun _ ht => (ensures_pure ht).bind fun _ ht =>
              ensures_pure (ht.under ("for " ++ names ++ " in " ++ words))
      | cons first rest =>
          -- the body stands below the filter, and the filter below the header
          apply Contains.of_indent
          apply contains_of_body hkind rfl
          rw [htext]
          exact (ensures_true _).bind fun names _ => (ensures_true _).bind fun words _ =>
            (h.body hs).bind fun _ ht =>
              Ensures.bind ((ensures_true _).bind fun filter _ =>
                ensures_pure ((ht.under ("if " ++ filter)).zero.indent hs.indent)) fun _ ht =>
                  ensures_pure (ht.under ("for " ++ names ++ " in " ++ words))
  | rangeLoop =>
      apply contains_of_body hkind rfl
      rw [htext]
      exact (ensures_true _).bind fun names _ => (ensures_true _).bind fun first _ =>
        (ensures_true _).bind fun last _ => (ensures_true _).bind fun step _ =>
          (h.body hs).bind fun _ ht => ensures_pure (ht.under_call
            ("for " ++ names ++ " in range(" ++ commaList (first :: last :: step.toList)))
  | conditional hc => exact h.conditional hg hr hc hs

/-- Whatever holds a node contains what the node shows. -/
theorem Shows.climb (hg : tree.Cuts g) (hs : Sealed s) (h : Shows tree g options s c)
    (hr : ReflTransGen tree.ChildOf c r) : Contains tree g options s r := by
  induction hr with
  | refl => exact h.contains
  | @tail b r _ hr ih =>
      obtain ⟨depth, ih⟩ := ih
      obtain ⟨p, hp, hb⟩ := hg.linked.exists_payload hr
      have hstep : Contains tree g options ((indentLines options)^[depth] s) r := by
        by_cases hlisted : b ∈ p.listed
        · exact ih.listed hg hp hlisted (hs.iterate depth)
        · have hbody := (hg.wellFormed r p hp).isBody hb hlisted ih.not_inline
          exact ih.slot hg hp hbody (hs.iterate depth)
      obtain ⟨more, hmore⟩ := hstep
      rw [← Function.iterate_add_apply] at hmore
      exact ⟨more + depth, hmore⟩

end TypedSyntax.Python
