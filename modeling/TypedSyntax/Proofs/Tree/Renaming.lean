import TypedSyntax.Proofs.Outcome
import TypedSyntax.Tree.Check

/-!
# Renamed nodes

Drafts with other nodes in their slots, and checks of renamed nodes one after
the other.
-/

namespace TypedSyntax

namespace Draft

/-- The draft with other nodes in its slots. -/
def rename (f : NodeId → NodeId) : Draft → Draft
  | .plain source => .plain source
  | .variable name type => .variable name type
  | .breaking => .breaking
  | .continuing => .continuing
  | .literal value type => .literal value type
  | .collection kind elements => .collection kind (elements.map f)
  | .mapping entries => .mapping (entries.map fun (key, value) => (f key, f value))
  | .declaration declared value => .declaration declared (value.map f)
  | .assignment name value => .assignment name (f value)
  | .unary token operand => .unary token (f operand)
  | .binary token lhs rhs => .binary token (f lhs) (f rhs)
  | .cast operand target => .cast (f operand) target
  | .block name nodes => .block name (nodes.map f)
  | .module name nodes => .module name (nodes.map f)
  | .argument parameter default => .argument parameter (default.map f)
  | .prototype signature arguments => .prototype signature (arguments.map f)
  | .function head body => .function (f head) (f body)
  | .call callee arguments => .call (f callee) (arguments.map f)
  | .callNamed callee arguments type => .callNamed callee (arguments.map f) type
  | .returning value => .returning (value.map f)
  | .conditional condition consequent alternative =>
    .conditional (f condition) (f consequent) (alternative.map f)
  | .whileLoop condition body => .whileLoop (f condition) (f body)
  | .forLoop target iterable conditions body =>
    .forLoop (f target) (f iterable) (conditions.map f) (f body)
  | .rangeLoop counter start stop step body =>
    .rangeLoop (f counter) (f start) (f stop) (step.map f) (f body)
  | .clause target iterable conditions isAsync =>
    .clause (f target) (f iterable) (conditions.map f) isAsync
  | .comprehension kind element generators => .comprehension kind (f element) (generators.map f)
  | .classDecl header bases decorators => .classDecl header (bases.map f) (decorators.map f)
  | .classDef header bases decorators attributes methods =>
    .classDef header (bases.map f) (decorators.map f) (attributes.map f) (methods.map f)

/-- The nodes that a draft names. -/
def references : Draft → List NodeId
  | .plain _ | .variable .. | .breaking | .continuing | .literal .. => []
  | .collection _ elements => elements
  | .mapping entries => entries.flatMap fun (key, value) => [key, value]
  | .declaration _ value => value.toList
  | .assignment _ value => [value]
  | .unary _ operand => [operand]
  | .binary _ lhs rhs => [lhs, rhs]
  | .cast operand _ => [operand]
  | .block _ nodes => nodes
  | .module _ nodes => nodes
  | .argument _ default => default.toList
  | .prototype _ arguments => arguments
  | .function head body => [head, body]
  | .call callee arguments => callee :: arguments
  | .callNamed _ arguments _ => arguments
  | .returning value => value.toList
  | .conditional condition consequent alternative =>
    condition :: consequent :: alternative.toList
  | .whileLoop condition body => [condition, body]
  | .forLoop target iterable conditions body => target :: iterable :: (conditions ++ [body])
  | .rangeLoop counter start stop step body =>
    counter :: start :: stop :: (step.toList ++ [body])
  | .clause target iterable conditions _ => target :: iterable :: conditions
  | .comprehension _ element generators => element :: generators
  | .classDecl _ bases decorators => bases ++ decorators
  | .classDef _ bases decorators attributes methods =>
    bases ++ decorators ++ attributes ++ methods

theorem rename_congr {f g : NodeId → NodeId} {draft : Draft}
    (h : ∀ n ∈ draft.references, f n = g n) : draft.rename f = draft.rename g := by
  cases draft with
  | mapping entries =>
      apply congrArg mapping
      apply List.map_congr_left
      intro entry hentry
      have hkey := h entry.1 (List.mem_flatMap.mpr ⟨entry, hentry, by simp⟩)
      have hvalue := h entry.2 (List.mem_flatMap.mpr ⟨entry, hentry, by simp⟩)
      exact Prod.ext hkey hvalue
  | declaration _ child | argument _ child | returning child | conditional _ _ child
  | rangeLoop _ _ _ child => cases child <;> simp_all [rename, references]
  | _ => simp_all [rename, references]

end Draft

/-- The children of a node are among the nodes that its draft names. -/
theorem Tree.children_subset_references {tree : Tree} {draft : Draft} {payload : Payload NodeId}
    (h : tree.payload? draft = .ok payload) : payload.children ⊆ draft.references := by
  cases draft with
  | plain | «variable» | breaking | continuing =>
      obtain rfl := Except.ok.inj h
      exact List.Subset.refl _
  | literal value type =>
      rw [payload?] at h
      split at h
      · obtain rfl := Except.ok.inj h
        exact List.Subset.refl _
      · cases h
  | call callee arguments =>
      simp only [payload?, callPayload, bind_eq_ok_iff] at h
      obtain ⟨⟨signature, declared⟩, -, parameters, -, h⟩ := h
      split at h
      · cases h
      · obtain ⟨-, h⟩ := check_bind_eq_ok_iff.mp h
        obtain rfl := pure_eq_ok_iff.mp h
        exact List.subset_cons_self _ _
  | unary token operand =>
      rw [payload?] at h
      split at h
      · cases h
      · simp only [bind_eq_ok_iff, pure_eq_ok_iff] at h
        obtain ⟨-, -, -, -, rfl⟩ := h
        exact List.Subset.refl _
  | binary token lhs rhs =>
      rw [payload?] at h
      split at h
      · cases h
      · simp only [bind_eq_ok_iff, pure_eq_ok_iff] at h
        obtain ⟨-, -, -, -, -, -, rfl⟩ := h
        exact List.Subset.refl _
  | comprehension kind element generators =>
      rw [payload?] at h
      split at h
      · cases h
      · simp only [bind_eq_ok_iff, pure_eq_ok_iff] at h
        obtain ⟨-, -, -, -, rfl⟩ := h
        exact List.Subset.refl _
  | rangeLoop counter start stop step body =>
      simp only [payload?, rangePayload, bind_eq_ok_iff] at h
      obtain ⟨found, -, h⟩ := h
      split at h
      · split at h
        · cases h
        · simp only [bind_eq_ok_iff, pure_eq_ok_iff] at h
          obtain ⟨-, -, -, -, -, -, -, -, -, -, rfl⟩ := h
          exact List.Subset.refl _
      · cases h
  | function | whileLoop | forLoop =>
      simp only [payload?, bind_eq_ok_iff, pure_eq_ok_iff] at h
      obtain ⟨-, -, -, -, rfl⟩ := h
      exact List.Subset.refl _
  | conditional | classDef =>
      simp only [payload?, bind_eq_ok_iff, pure_eq_ok_iff] at h
      obtain ⟨-, -, -, -, -, -, rfl⟩ := h
      exact List.Subset.refl _
  | _ =>
      simp only [payload?, bind_eq_ok_iff, pure_eq_ok_iff] at h
      obtain ⟨-, -, rfl⟩ := h
      exact List.Subset.refl _

section Lists

variable {A B C : Type} {m : Type → Type} [Monad m] [LawfulMonad m] {f : A → B} {F : B → m C}
  {G : A → m C}

theorem mapM_map_congr {xs : List A} (h : ∀ x ∈ xs, F (f x) = G x) :
    (xs.map f).mapM F = xs.mapM G := by
  induction xs with
  | nil => rfl
  | cons x xs ih =>
      obtain ⟨hx, hxs⟩ := List.forall_mem_cons.mp h
      rw [List.map_cons, List.mapM_cons, List.mapM_cons, hx, ih hxs]

omit [LawfulMonad m] in
theorem forM_map_congr {F : B → m PUnit} {G : A → m PUnit} {xs : List A}
    (h : ∀ x ∈ xs, F (f x) = G x) : (xs.map f).forM F = xs.forM G := by
  induction xs with
  | nil => rfl
  | cons x xs ih =>
      obtain ⟨hx, hxs⟩ := List.forall_mem_cons.mp h
      rw [List.map_cons, List.forM_eq_forM, List.forM_eq_forM, List.forM_cons, List.forM_cons, hx,
        ← List.forM_eq_forM, ← List.forM_eq_forM, ih hxs]

end Lists

end TypedSyntax
