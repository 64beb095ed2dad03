import TypedSyntax.Proofs.Tree.Preorder
import TypedSyntax.Proofs.Tree.Sound

/-!
# Methods

A node heads a method if its parent's parent is a class. In a tree after any run
this is so exactly for the heads of the functions that a class lists as methods,
since no other slot of a class holds a function.
-/

namespace TypedSyntax.Tree

open Relation

variable {tree : Tree} {f p q : NodeId} {body : NodeId}

/-- The node lists the function among the methods of a class. -/
def ListsMethod (tree : Tree) (c f : NodeId) : Prop :=
  ∃ header bases decorators attributes methods,
    tree.payload c = .ok (.classDef header bases decorators attributes methods) ∧ f ∈ methods

/-- The node lists the statement in a block. -/
def ListsInBlock (tree : Tree) (b n : NodeId) : Prop :=
  ∃ name nodes, tree.payload b = .ok (.block name nodes) ∧ n ∈ nodes

/-- The node is the head of a function that some class lists as a method. -/
def HeadsMethod (tree : Tree) (p : NodeId) : Prop :=
  ∃ c f body, tree.ListsMethod c f ∧ tree.payload f = .ok (.function p body)

theorem isMethodHead_iff {node : Node} :
    tree.isMethodHead node = true ↔
      ∃ f c, node.parent = some f ∧ tree.ChildOf f c ∧ tree.HasKind .classDef c := by
  unfold isMethodHead HasKind
  cases hp : node.parent with
  | none => simp
  | some f =>
      rw [Option.bind_some]
      cases hjoin : (tree.parent f).toOption.join with
      | none =>
          have hnone : ∀ c, ¬ tree.ChildOf f c := by
            intro c hc
            rw [join_parent_eq_some_iff.mpr hc] at hjoin
            cases hjoin
          simp [hnone]
      | some c =>
          have hchild := join_parent_eq_some_iff.mp hjoin
          have hunique : ∀ c', tree.ChildOf f c' → c' = c := by
            intro c' hc'
            exact Option.some.inj (Except.ok.inj (hc'.symm.trans hchild))
          constructor
          · intro hkind
            refine ⟨f, c, rfl, hchild, ?_⟩
            cases hc : tree.kind c <;> simp_all
          · rintro ⟨f', c', hf, hc', hkind⟩
            obtain rfl := Option.some.inj hf
            obtain rfl := hunique c' hc'
            simp [hkind]

section Sound

variable (ht : Sound tree)
include ht

/-- Only a function has a prototype in a slot. -/
theorem Sound.function_of_prototype (hp : tree.HasKind .prototype p) (h : tree.ChildOf p f) :
    ∃ body, tree.payload f = .ok (.function p body) := by
  obtain ⟨payload, hpayload, hmem⟩ := ht.linked.exists_payload h
  cases (ht.wellFormed f payload hpayload).sits p hmem with
  | expression he => exact (he.not_hasKind (by decide) hp).elim
  | part hpart hkind =>
      obtain rfl := Except.ok.inj (hkind.symm.trans hp)
      exact absurd hpart (by decide)
  | head he _ => exact ⟨_, he ▸ hpayload⟩
  | listed _ hs =>
      obtain ⟨kind, hkind, hstatement⟩ := hs
      obtain rfl := Except.ok.inj (hkind.symm.trans hp)
      exact absurd (by decide) hstatement

/-- A function stands in a list of statements. -/
theorem Sound.listed_of_function (hf : tree.HasKind .function f) (h : tree.ChildOf f q) :
    ∃ payload, tree.payload q = .ok payload ∧ f ∈ payload.listed := by
  obtain ⟨payload, hpayload, hmem⟩ := ht.linked.exists_payload h
  cases (ht.wellFormed q payload hpayload).sits f hmem with
  | expression he => exact (he.not_hasKind (by decide) hf).elim
  | part hpart hkind =>
      obtain rfl := Except.ok.inj (hkind.symm.trans hf)
      exact absurd hpart (by decide)
  | head _ hkind => cases Except.ok.inj (hkind.symm.trans hf)
  | listed hlisted _ => exact ⟨payload, hpayload, hlisted⟩

/-- The methods are the only slot of a class for functions. -/
theorem Sound.listsMethod_of_function (hf : tree.HasKind .function f) (h : tree.ChildOf f q)
    (hq : tree.HasKind .classDef q) : tree.ListsMethod q f := by
  obtain ⟨payload, hpayload, hlisted⟩ := ht.listed_of_function hf h
  have hfits := ht.wellFormed q payload hpayload
  have hkind : payload.kind = .classDef :=
    Except.ok.inj ((hasKind_of_payload hpayload).symm.trans hq)
  cases hfits with
  | classDef _ hattributes hmethods =>
      rcases List.mem_append.mp hlisted with hmem | hmem
      · cases Except.ok.inj ((hattributes f hmem).symm.trans hf)
      · exact ⟨_, _, _, _, _, hpayload, hmem⟩
  | _ => cases hkind

theorem Sound.childOf_of_listsMethod (h : tree.ListsMethod q f) : tree.ChildOf f q := by
  obtain ⟨header, bases, decorators, attributes, methods, hq, hf⟩ := h
  exact ht.linked.childOf_of_payload hq (List.mem_append_right _ hf)

theorem Sound.childOf_head (hf : tree.payload f = .ok (.function p body)) : tree.ChildOf p f :=
  ht.linked.childOf_of_payload hf List.mem_cons_self

/-- A node heads a method exactly if some class lists its function as one. -/
theorem Sound.isMethodHead_iff_headsMethod {node : Node} (hnode : tree.node p = .ok node)
    (hp : tree.HasKind .prototype p) : tree.isMethodHead node = true ↔ tree.HeadsMethod p := by
  rw [isMethodHead_iff]
  constructor
  · rintro ⟨f, c, hparent, hchild, hkind⟩
    obtain ⟨body, hf⟩ := ht.function_of_prototype hp (childOf_iff.mpr ⟨node, hnode, hparent⟩)
    exact ⟨c, f, body, ht.listsMethod_of_function (hasKind_of_payload hf) hchild hkind, hf⟩
  · rintro ⟨c, f, body, hlists, hf⟩
    obtain ⟨node', hnode', hparent⟩ := childOf_iff.mp (ht.childOf_head hf)
    obtain rfl := Except.ok.inj (hnode.symm.trans hnode')
    have hclass := ht.childOf_of_listsMethod hlists
    obtain ⟨header, bases, decorators, attributes, methods, hc, -⟩ := hlists
    exact ⟨f, c, hparent, hclass, hasKind_of_payload hc⟩

/-- Whether a head heads a method depends on where its function stands. -/
theorem Sound.headsMethod_iff (hf : tree.payload f = .ok (.function p body)) :
    tree.HeadsMethod p ↔ ∃ c, tree.ListsMethod c f := by
  constructor
  · rintro ⟨c, f', body', hlists, hf'⟩
    obtain rfl := rightUnique_childOf tree (ht.childOf_head hf') (ht.childOf_head hf)
    exact ⟨c, hlists⟩
  · rintro ⟨c, hlists⟩
    exact ⟨c, f, body, hlists, hf⟩

/-- A statement of a block is no method. -/
theorem Sound.not_headsMethod (hf : tree.payload f = .ok (.function p body))
    (hlists : tree.ListsInBlock q f) : ¬ tree.HeadsMethod p := by
  obtain ⟨name, nodes, hq, hmem⟩ := hlists
  rw [ht.headsMethod_iff hf]
  rintro ⟨c, hmethod⟩
  have hchild := ht.linked.childOf_of_payload hq hmem
  obtain rfl := rightUnique_childOf tree (ht.childOf_of_listsMethod hmethod) hchild
  obtain ⟨header, bases, decorators, attributes, methods, hc, -⟩ := hmethod
  cases Except.ok.inj (hc.symm.trans hq)

/-- A function inside a block is a statement of a block or a method of a class there. -/
theorem Sound.function_below (hf : tree.payload f = .ok (.function p body)) {inner : NodeId}
    (hinner : tree.HasKind .block inner) (hbelow : ReflTransGen tree.ChildOf f inner) :
    ∃ q, ReflTransGen tree.ChildOf q inner ∧
      ((tree.ListsInBlock q f ∧ ¬ tree.HeadsMethod p) ∨
        (tree.ListsMethod q f ∧ tree.HeadsMethod p)) := by
  have hkind : tree.HasKind .function f := hasKind_of_payload hf
  rcases ReflTransGen.cases_head hbelow with rfl | ⟨q, hchild, habove⟩
  · cases Except.ok.inj (hkind.symm.trans hinner)
  refine ⟨q, habove, ?_⟩
  obtain ⟨payload, hq, hlisted⟩ := ht.listed_of_function hkind hchild
  cases payload with
  | block name nodes =>
      have hlists : tree.ListsInBlock q f := ⟨name, nodes, hq, hlisted⟩
      exact .inl ⟨hlists, ht.not_headsMethod hf hlists⟩
  | module name nodes =>
      -- A module has no parent, so that it is not inside a block.
      have hmodule : tree.HasKind .module q := hasKind_of_payload hq
      rcases ReflTransGen.cases_head habove with rfl | ⟨above, hup, -⟩
      · cases Except.ok.inj (hmodule.symm.trans hinner)
      · exact (ht.not_childOf_module hmodule hup).elim
  | classDef =>
      have hlists := ht.listsMethod_of_function hkind hchild (hasKind_of_payload hq)
      exact .inr ⟨hlists, (ht.headsMethod_iff hf).mpr ⟨q, hlists⟩⟩
  | _ => cases hlisted

end Sound

end TypedSyntax.Tree
