import TypedSyntax.Proofs.Export.Normal

/-!
# Texts and noted imports

The text of a term does not depend on the imports that were noted before, so
that a writer gives the same text whatever it rendered earlier.
-/

namespace TypedSyntax.Python

variable {A B : Type} {m : Writing A}

/-- The result does not depend on the imports noted before. -/
def Steady (m : Writing A) : Prop :=
  ∀ imports imports', (m.run imports).1 = (m.run imports').1

/-- A computation is steady if it is coupled to itself whatever was noted. -/
theorem steady_iff : Steady m ↔ Coupled (fun _ _ => True) (· = ·) m m := by
  constructor
  · exact fun h imports imports' _ => ⟨h imports imports', trivial⟩
  · exact fun h imports imports' => (h imports imports' trivial).1

/-- The text of a node does not depend on the imports if those of its children
do not. A module starts from no imports. -/
theorem steady_nodeText {options : PythonOptions} (info : TermInfo) {p : Payload Part}
    (h : ∀ c ∈ p.children, Steady c.2) : Steady (nodeText options info p) := by
  have htext : ∀ c ∈ p.children, Coupled (fun _ _ => True) (· = ·) c.2 c.2 :=
    fun c hc => steady_iff.mp (h c hc)
  have hcomparison : Comparison (fun _ _ => True) fun _ s t => s = t :=
    comparison_eq fun _ => steady_iff.mp fun _ _ => rfl
  have hparallel : Parallel (fun _ _ => True) (fun _ s t => s = t) (fun c : Part => c)
      (fun c => c) (fun _ => 0) (fun _ => 0) p := by
    constructor
    · exact htext
    · exact fun _ _ => rfl
    · intro c hc
      exact coupled_operand (k := 0) hcomparison (htext c (Payload.mem_of_mem_operands hc)) rfl
    · exact fun c hc => coupled_target hcomparison (htext c (Payload.mem_of_mem_target? hc))
    · exact fun _ _ => rfl
  have hmodule : ∀ nodes : List Part, Steady (writeModule nodes) := fun _ _ _ => rfl
  have hcoupled : Coupled (fun _ _ => True) (· = ·) (nodeText options info (p.map fun c => c))
      (nodeText options info (p.map fun c => c)) := by
    apply coupled_nodeText hcomparison hparallel _ rfl
    exact fun _ _ _ => steady_iff.mp (hmodule _)
  rw [Payload.map_id] at hcoupled
  exact steady_iff.mpr hcoupled

/-- The text of a term does not depend on the imports noted before. -/
theorem steady_text (options : PythonOptions) (t : Term) : Steady (text options t) := by
  induction t using Term.induction with
  | node info p ih =>
    rw [text, Term.fold_node]
    apply steady_nodeText
    intro c hc
    rw [Payload.children_map] at hc
    obtain ⟨t, ht, rfl⟩ := List.mem_map.mp hc
    exact ih t ht

/-- The text of a node, with a line feed after that of a module. -/
theorem Writer.render_fst {writer : Writer} {tree : Tree} {id : NodeId} {t : Term}
    (h : tree.term id = .ok t) :
    (writer.render tree id).1 =
      let out := ((text writer.options t).run writer.imports).1
      .ok (if t.kind = .module && !out.isEmpty then out ++ "\n" else out) := by
  rw [render, h]
  rfl

/-- Writers with the same options give the same text for nodes whose terms have the
same text, whatever they rendered before. -/
theorem Writer.render_eq_of_text {writer writer' : Writer}
    (hoptions : writer.options = writer'.options) {tree tree' : Tree} {id id' : NodeId}
    {t t' : Term} (hterm : tree.term id = .ok t) (hterm' : tree'.term id' = .ok t')
    (hkind : t.kind = t'.kind) (htext : text writer.options t = text writer.options t') :
    ∃ s, (writer.render tree id).1 = .ok s ∧ (writer'.render tree' id').1 = .ok s := by
  refine ⟨_, render_fst hterm, ?_⟩
  rw [render_fst hterm', ← hoptions, ← hkind, ← htext,
    steady_text writer.options t writer'.imports writer.imports]

/-- Writers with the same options give the same text for nodes whose terms have
the same normal form, whatever they rendered before. -/
theorem Writer.render_eq {writer writer' : Writer} (hoptions : writer.options = writer'.options)
    {tree tree' : Tree} {id id' : NodeId} {t t' : Term} (hterm : tree.term id = .ok t)
    (hterm' : tree'.term id' = .ok t')
    (hnormal : t.normal TermInfo.shown = t'.normal TermInfo.shown) :
    ∃ s, (writer.render tree id).1 = .ok s ∧ (writer'.render tree' id').1 = .ok s := by
  have hkind : t.kind = t'.kind := by
    have hkinds := congrArg Term.kind hnormal
    rwa [Term.kind_normal, Term.kind_normal] at hkinds
  have htext : text writer.options t = text writer.options t' :=
    calc
      text writer.options t = text writer.options (t.normal TermInfo.shown) := (text_shown t).symm
      _ = text writer.options (t'.normal TermInfo.shown) := by rw [hnormal]
      _ = text writer.options t' := text_shown t'
  exact render_eq_of_text hoptions hterm hterm' hkind htext

end TypedSyntax.Python
