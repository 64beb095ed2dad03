import Mathlib.Data.List.Induction
import TypedSyntax.Proofs.Tree.Change
import TypedSyntax.Workspace

/-!
# Runs of a workspace

A run is a finite sequence of calls, each of which may fail. `Effect` says
what a call can do: how it may end, and what the workspace is afterwards. An
invariant of trees is proved once for the four ways in which a tree changes.
-/

namespace TypedSyntax.Workspace

/-- A call that changes a workspace. -/
inductive Action where
  | newTree
  | build (tree : Nat) (draft : Draft)
  | append (tree : Nat) (block child : NodeId)
  | atLocation (tree : Nat) (loc : SourceLocation)
  | setComment (tree : Nat) (node : NodeId) (comment : String)

/-- The tree that a call works on. -/
def Action.tree? : Action → Option Nat
  | .newTree => none
  | .build i _ | .append i .. | .atLocation i _ | .setComment i .. => some i

/-- How a call ends. -/
inductive Outcome where
  | done
  | built (node : NodeId)
  | refused (error : ConstructionError)

/-- Whether the tree exists that a call works on. -/
def knows (w : Workspace) : Action → Bool
  | .newTree => true
  | .build id _ | .append id .. | .atLocation id _ | .setComment id .. =>
    decide (id < w.trees.size)

/-- Makes a call on a tree that exists. -/
def apply (w : Workspace) : Action → Outcome × Workspace
  | .newTree => (.done, w.newTree.1)
  | .build id draft =>
    match w.build id draft with
    | (after, .ok node) => (.built node, after)
    | (after, .error e) => (.refused e, after)
  | .append id block child =>
    match w.append id block child with
    | .ok after => (.done, after)
    | .error e => (.refused e, w)
  | .atLocation id loc => (.done, w.atLocation id loc)
  | .setComment id node comment =>
    match w.setComment id node comment with
    | .ok after => (.done, after)
    | .error e => (.refused (.node e), w)

/-- Makes a call. On a tree that does not exist it does nothing. -/
def perform (w : Workspace) (a : Action) : Outcome × Workspace :=
  if w.knows a then w.apply a else (.refused (.node .foreign), w)

/-- The workspace after some calls. -/
def run (actions : List Action) : Workspace :=
  actions.foldl (fun w a => (w.perform a).2) empty

/-- A run goes on from where it was. -/
theorem run_concat (actions : List Action) (a : Action) :
    run (actions ++ [a]) = ((run actions).perform a).2 := by
  simp [run]

/-- The workspace with another tree in one place. -/
def withTree (w : Workspace) (id : Nat) (tree : Tree) : Workspace :=
  { w with trees := w.trees.setIfInBounds id tree }

/-- Every tree is named by its position. -/
def Numbered (w : Workspace) : Prop :=
  ∀ id < w.trees.size, (w.tree id).id = id

variable {w : Workspace} {tree : Tree} {id : Nat}

theorem put_eq_withTree (h : tree.id = id) : w.put tree = w.withTree id tree := by
  subst h
  have htrees : w.trees.modify tree.id (fun _ => tree) = w.trees.setIfInBounds tree.id tree := by
    apply Array.ext_getElem?
    intro i
    rw [Array.getElem?_modify, Array.getElem?_setIfInBounds]
    by_cases hi : tree.id = i
    · subst hi
      by_cases hsize : tree.id < w.trees.size <;> simp [hsize]
    · simp [hi]
  simp [put, withTree, htrees]

@[simp] theorem size_withTree : (w.withTree id tree).trees.size = w.trees.size := by
  simp [withTree]

theorem tree_withTree (h : id < w.trees.size) (other : Nat) :
    (w.withTree id tree).tree other = if other = id then tree else w.tree other := by
  by_cases ho : other = id
  · subst ho
    simp [Workspace.tree, withTree, h]
  · simp [Workspace.tree, withTree, ho, Ne.symm ho]

/-- In a place without a tree an empty tree is found. -/
theorem tree_of_not_lt (h : ¬ id < w.trees.size) : w.tree id = .empty id := by
  simp [Workspace.tree, h]

theorem lt_size_of_has {node : NodeId} (h : (w.tree id).Has node) : id < w.trees.size := by
  by_contra hid
  rw [tree_of_not_lt hid] at h
  exact Nat.not_lt_zero _ h.2

/-- What a call can do: how it ends, and what the workspace is afterwards. -/
inductive Effect (w : Workspace) : Action → Outcome → Workspace → Prop
  /-- There is no such tree. -/
  | unknown {a} : w.knows a = false → Effect w a (.refused (.node .foreign)) w
  | opened : Effect w .newTree .done { w with trees := w.trees.push (.empty w.trees.size) }
  /-- The draft or one of its children is refused: only the pending location is lost. -/
  | unbuilt {id draft e} :
      (∀ payload, (w.tree id).payload? draft = .ok payload →
        (∀ c ∈ payload.children, (w.tree id).Free c) → ¬ payload.children.Nodup) →
      Effect w (.build id draft) (.refused e) (w.withTree id { w.tree id with pending := none })
  /-- A node is added, and a tag used up. -/
  | built {id draft payload after} :
      (w.tree id).payload? draft = .ok payload →
      (w.tree id).Grown after ((w.tree id).newNode w.nextTag payload) →
      Effect w (.build id draft) (.built (w.tree id).nextId)
        { w.withTree id after with nextTag := w.nextTag + 1 }
  | unappended {id block child e} : ¬ (w.tree id).Appendable block child →
      Effect w (.append id block child) (.refused e) w
  | appended {id block child after} : (w.tree id).Lengthened after block child →
      Effect w (.append id block child) .done (w.withTree id after)
  | located {id loc} :
      Effect w (.atLocation id loc) .done (w.withTree id { w.tree id with pending := some loc })
  | uncommented {id node comment e} : ¬ (w.tree id).Has node →
      Effect w (.setComment id node comment) (.refused e) w
  | commented {id node comment after} : (w.tree id).Commented after node comment →
      Effect w (.setComment id node comment) .done (w.withTree id after)

/-- A constructor adds one node, or only clears the pending location. -/
theorem effect_build (h : (w.tree id).id = id) (draft : Draft) :
    Effect w (.build id draft) (w.apply (.build id draft)).1 (w.apply (.build id draft)).2 := by
  cases hadmitted : (w.tree id).admitted draft with
  | error e =>
      simp only [apply, build, Tree.build_of_refused hadmitted]
      rw [put_eq_withTree (show (w.tree id).clearPending.id = id from h)]
      apply Effect.unbuilt
      intro payload hpayload hfree hnodup
      rw [Tree.admitted_eq_ok_iff.mpr ⟨hpayload, hfree, hnodup⟩] at hadmitted
      cases hadmitted
  | ok payload =>
      have hgrown := Tree.grown_of_admitted hadmitted w.nextTag
      simp only [apply, build, Tree.build_of_admitted hadmitted]
      rw [put_eq_withTree (hgrown.id_eq.trans h)]
      exact Effect.built (Tree.admitted_eq_ok_iff.mp hadmitted).1 hgrown

/-- An append adds one statement, or changes nothing. -/
theorem effect_append (h : (w.tree id).id = id) (block child : NodeId) :
    Effect w (.append id block child) (w.apply (.append id block child)).1
      (w.apply (.append id block child)).2 := by
  cases happend : (w.tree id).append block child with
  | error e =>
      simp only [apply, append, happend, Except.map]
      apply Effect.unappended
      intro happ
      rw [Tree.append_eq_ok_iff.mpr ⟨happ, rfl⟩] at happend
      cases happend
  | ok after =>
      have hlong := Tree.lengthened_of_append happend
      simp only [apply, append, happend, Except.map]
      rw [put_eq_withTree (hlong.id_eq.trans h)]
      exact Effect.appended hlong

/-- A comment is set, or nothing changes. -/
theorem effect_setComment (h : (w.tree id).id = id) (node : NodeId) (comment : String) :
    Effect w (.setComment id node comment) (w.apply (.setComment id node comment)).1
      (w.apply (.setComment id node comment)).2 := by
  cases hcomment : (w.tree id).setComment node comment with
  | error e =>
      simp only [apply, setComment, hcomment, Except.map]
      exact Effect.uncommented (Tree.setComment_eq_error hcomment)
  | ok after =>
      have hafter := Tree.commented_of_setComment hcomment
      simp only [apply, setComment, hcomment, Except.map]
      rw [put_eq_withTree (hafter.id_eq.trans h)]
      exact Effect.commented hafter

/-- Every call on a numbered workspace has one of the effects. -/
theorem effect_perform (hw : w.Numbered) (a : Action) :
    Effect w a (w.perform a).1 (w.perform a).2 := by
  unfold perform
  cases hknown : w.knows a with
  | false => exact Effect.unknown hknown
  | true =>
      rw [if_pos rfl]
      cases a with
      | newTree => exact Effect.opened
      | build id draft => exact effect_build (hw id (by simpa [knows] using hknown)) draft
      | append id block child =>
          exact effect_append (hw id (by simpa [knows] using hknown)) block child
      | atLocation id loc =>
          simp only [apply, atLocation]
          have hloc : ((w.tree id).atLocation loc).id = id := hw id (by simpa [knows] using hknown)
          rw [put_eq_withTree hloc]
          exact Effect.located
      | setComment id node comment =>
          exact effect_setComment (hw id (by simpa [knows] using hknown)) node comment

theorem tree_push {new : Tree} (w : Workspace) (h : id < w.trees.size + 1) :
    ({ w with trees := w.trees.push new } : Workspace).tree id =
      if id = w.trees.size then new else w.tree id := by
  by_cases hid : id = w.trees.size
  · simp [Workspace.tree, hid]
  · have hlt : id < w.trees.size := by omega
    simp [Workspace.tree, hid, Array.getElem?_push]

/-- A tree that is opened is what was found in its place before. -/
theorem tree_push_empty (w : Workspace) (i : Nat) :
    ({ w with trees := w.trees.push (.empty w.trees.size) } : Workspace).tree i = w.tree i := by
  by_cases hi : i < w.trees.size + 1
  · rw [tree_push w hi]
    by_cases he : i = w.trees.size
    · rw [if_pos he, he, tree_of_not_lt (Nat.lt_irrefl _)]
    · rw [if_neg he]
  · have hafter : ¬ i < (w.trees.push (.empty w.trees.size)).size := by simpa using hi
    rw [tree_of_not_lt (w := { w with trees := w.trees.push _ }) hafter, tree_of_not_lt (by omega)]

/-- A property of a tree and its place that holds of empty trees and that no
change of a tree destroys is kept by every call. -/
theorem Effect.forall_trees {P : Nat → Tree → Prop} {a : Action} {o : Outcome}
    {after : Workspace} (h : Effect w a o after)
    (opened : ∀ i, P i (.empty i))
    (quiet : ∀ {i t t'}, t'.id = t.id → t'.nodes = t.nodes → P i t → P i t')
    (grown : ∀ {i t t' draft payload tag}, t.payload? draft = .ok payload →
      t.Grown t' (t.newNode tag payload) → P i t → P i t')
    (lengthened : ∀ {i t t' b c}, t.Lengthened t' b c → P i t → P i t')
    (commented : ∀ {i t t' n c}, t.Commented t' n c → P i t → P i t')
    (hw : ∀ i < w.trees.size, P i (w.tree i)) :
    ∀ i < after.trees.size, P i (after.tree i) := by
  -- The changed tree is one of many: the others keep the property as they are.
  have changed : ∀ {id : Nat} {t : Tree}, (P id (w.tree id) → P id t) →
      ∀ i < (w.withTree id t).trees.size, P i ((w.withTree id t).tree i) := by
    intro id t ht i hi
    rw [size_withTree] at hi
    by_cases hid : id < w.trees.size
    · rw [tree_withTree hid]
      by_cases he : i = id
      · rw [if_pos he, he]
        exact ht (hw id hid)
      · rw [if_neg he]
        exact hw i hi
    · have hsame : w.withTree id t = w := by
        simp [withTree, Array.setIfInBounds, hid]
      rw [hsame]
      exact hw i hi
  cases h with
  | unknown | unappended | uncommented => exact hw
  | opened =>
      intro i hi
      have hi : i < w.trees.size + 1 := by simpa using hi
      rw [tree_push w hi]
      by_cases he : i = w.trees.size
      · rw [if_pos he, ← he]
        exact opened i
      · rw [if_neg he]
        exact hw i (by omega)
  | unbuilt => exact changed (quiet rfl rfl)
  | built hpayload hgrown => exact changed (grown hpayload hgrown)
  | appended hlong => exact changed (lengthened hlong)
  | located => exact changed (quiet rfl rfl)
  | commented hcomment => exact changed (commented hcomment)

/-- Each tree has its own number. -/
theorem numbered_run (actions : List Action) : (run actions).Numbered := by
  induction actions using List.reverseRecOn with
  | nil =>
      intro id hid
      simp [run, empty] at hid
  | append_singleton actions a ih =>
      rw [run_concat]
      exact (effect_perform ih a).forall_trees (P := fun i t => t.id = i)
        (fun _ => rfl) (fun hid _ h => hid.trans h) (fun _ hg h => hg.id_eq.trans h)
        (fun hl h => hl.id_eq.trans h) (fun hc h => hc.id_eq.trans h) ih

/-- What holds of empty trees and what no change of a tree destroys holds of
every tree after every run. -/
theorem forall_tree_run {P : Tree → Prop}
    (opened : ∀ i, P (.empty i))
    (quiet : ∀ {t t'}, t'.id = t.id → t'.nodes = t.nodes → P t → P t')
    (grown : ∀ {t t' draft payload tag}, t.payload? draft = .ok payload →
      t.Grown t' (t.newNode tag payload) → P t → P t')
    (lengthened : ∀ {t t' b c}, t.Lengthened t' b c → P t → P t')
    (commented : ∀ {t t' n c}, t.Commented t' n c → P t → P t')
    (actions : List Action) (i : Nat) : P ((run actions).tree i) := by
  have hall : ∀ i < (run actions).trees.size, P ((run actions).tree i) := by
    induction actions using List.reverseRecOn with
    | nil =>
        intro id hid
        simp [run, empty] at hid
    | append_singleton actions a ih =>
        rw [run_concat]
        exact (effect_perform (numbered_run actions) a).forall_trees (P := fun _ t => P t)
          opened quiet grown lengthened commented ih
  by_cases hi : i < (run actions).trees.size
  · exact hall i hi
  · rw [tree_of_not_lt hi]
    exact opened i

/-- Every call after every run succeeds with its whole effect or changes
nothing but a pending location. -/
theorem effect_run (actions : List Action) (a : Action) :
    Effect (run actions) a ((run actions).perform a).1 ((run actions).perform a).2 :=
  effect_perform (numbered_run actions) a

/-- No call removes a tree. -/
theorem Effect.size_le {a : Action} {o : Outcome} {after : Workspace} (h : Effect w a o after) :
    w.trees.size ≤ after.trees.size := by
  cases h with
  | opened => simp
  | unbuilt | appended | located | commented => exact Nat.le_of_eq size_withTree.symm
  | built => exact Nat.le_of_eq (size_withTree (w := w)).symm
  | _ => exact Nat.le_refl _

theorem size_run_concat {i : Nat} {actions : List Action} (a : Action)
    (h : i < (run actions).trees.size) : i < (run (actions ++ [a])).trees.size := by
  rw [run_concat]
  exact Nat.lt_of_lt_of_le h (effect_perform (numbered_run actions) a).size_le

/-- No tree is lost. -/
theorem size_run_append {i : Nat} (actions later : List Action)
    (h : i < (run actions).trees.size) : i < (run (actions ++ later)).trees.size := by
  induction later using List.reverseRecOn with
  | nil => rwa [List.append_nil]
  | append_singleton later a ih =>
      rw [← List.append_assoc]
      exact size_run_concat a ih

end TypedSyntax.Workspace
