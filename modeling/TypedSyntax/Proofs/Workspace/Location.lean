import TypedSyntax.Proofs.Workspace.Handle

/-!
# Locations of nodes

A node has the location that was set last for its tree since the constructor call before its
own. Every constructor call uses the location up, also one that fails. No other call does, nor
does a look at the workspace.
-/

namespace TypedSyntax.Workspace

open TypedSyntax.Tree

variable {w after : Workspace} {a : Action} {o : Outcome} {i : Nat} {id : NodeId}

/-! ## The location that waits for the next node -/

namespace Action

def isBuild : Action → Bool
  | .build .. => true
  | _ => false

/-- The location that a call sets. -/
def place? : Action → Option SourceLocation
  | .atLocation _ loc => some loc
  | _ => none

/-- The location that waits in a tree after a call on it. -/
def waiting (a : Action) (before : Option SourceLocation) : Option SourceLocation :=
  if a.isBuild then none else a.place?.or before

end Action

/-- The location that was set last since the last constructor call, if there is one. -/
def lastPlace? (calls : List Action) : Option SourceLocation :=
  (calls.reverse.takeWhile fun a => !a.isBuild).findSome? Action.place?

/-- Each call for a tree says what is waiting after it. -/
theorem lastPlace?_concat (calls : List Action) (a : Action) :
    lastPlace? (calls ++ [a]) = a.waiting (lastPlace? calls) := by
  unfold lastPlace? Action.waiting
  rw [List.reverse_concat, List.takeWhile_cons]
  cases hbuild : a.isBuild with
  | true => rfl
  | false =>
      simp only [Bool.not_false, if_true, List.findSome?_cons, Bool.false_eq_true, if_false]
      cases a.place? <;> rfl

theorem pending_withTree {j : Nat} (h : j < w.trees.size) (tree : Tree) (i : Nat) :
    ((w.withTree j tree).tree i).pending =
      if some j = some i then tree.pending else (w.tree i).pending := by
  rw [tree_withTree h]
  by_cases hi : i = j
  · rw [if_pos hi, if_pos (congrArg some hi.symm)]
  · rw [if_neg hi, if_neg fun he => hi (Option.some.inj he).symm]

theorem pending_withTree_of_eq {j : Nat} {tree : Tree} (h : tree.pending = (w.tree j).pending)
    (i : Nat) : ((w.withTree j tree).tree i).pending = (w.tree i).pending := by
  rcases tree_withTree_cases w j tree i with ⟨rfl, htree⟩ | ⟨-, htree⟩
  · rw [htree, h]
  · rw [htree]

/-- A call on a tree that exists changes at most the location that waits there. -/
theorem Effect.pending_eq (h : Effect w a o after) (hknown : w.knows a = true) (i : Nat) :
    (after.tree i).pending =
      if a.tree? = some i then a.waiting (w.tree i).pending else (w.tree i).pending := by
  cases h with
  | unknown hunknown =>
      rw [hknown] at hunknown
      cases hunknown
  | opened =>
      rw [tree_push_empty]
      rfl
  | unbuilt => exact pending_withTree (of_decide_eq_true hknown) _ i
  | @built id draft payload tree _ hgrown =>
      have hpending := pending_withTree (of_decide_eq_true hknown) tree i
      rw [hgrown.pending_eq] at hpending
      exact hpending
  | unappended | uncommented => exact (ite_self _).symm
  | appended hlong => exact (pending_withTree_of_eq hlong.pending_eq i).trans (ite_self _).symm
  | located => exact pending_withTree (of_decide_eq_true hknown) _ i
  | commented hcommented =>
      exact (pending_withTree_of_eq hcommented.pending_eq i).trans (ite_self _).symm

/-! ## Uses of a workspace -/

/-- One use of a workspace: a call, or a look that computes an answer, such as a query, an
export or a rendering. -/
inductive Use where
  | call (a : Action)
  | look {α : Type} (answer : Workspace → α)

/-- The calls among some uses. -/
def Use.call? : Use → Option Action
  | .call a => some a
  | .look _ => none

/-- The workspace after some uses. -/
def use (w : Workspace) : Use → Workspace
  | .call a => (w.perform a).2
  | .look _ => w

def used (uses : List Use) : Workspace :=
  uses.foldl use empty

/-- Uses of a workspace build what their calls build. -/
theorem used_eq_run (uses : List Use) : used uses = run (uses.filterMap Use.call?) := by
  rw [run, List.foldl_filterMap]
  apply List.foldl_ext
  rintro w (a | answer) - <;> rfl

@[simp] theorem used_concat (uses : List Use) (u : Use) :
    used (uses ++ [u]) = (used uses).use u := by
  simp [used]

theorem numbered_used (uses : List Use) : (used uses).Numbered := by
  rw [used_eq_run]
  exact numbered_run _

/-- The call that a tree receives by a use of the workspace. -/
def Use.received (w : Workspace) (i : Nat) : Use → List Action
  | .call a => if w.knows a ∧ a.tree? = some i then [a] else []
  | .look _ => []

/-- The calls that a tree receives from some uses of a workspace on. -/
def receivedFrom (i : Nat) : Workspace → List Use → List Action
  | _, [] => []
  | w, u :: later => u.received w i ++ receivedFrom i (w.use u) later

theorem receivedFrom_append (w : Workspace) (before later : List Use) :
    receivedFrom i w (before ++ later) =
      receivedFrom i w before ++ receivedFrom i (before.foldl use w) later := by
  induction before generalizing w with
  | nil => rfl
  | cons u before ih =>
      rw [List.cons_append, receivedFrom, ih, receivedFrom, List.append_assoc]
      rfl

/-- The calls that a tree receives. -/
def received (i : Nat) (uses : List Use) : List Action :=
  receivedFrom i empty uses

/-- The calls that a tree has received grow one by one. -/
theorem received_concat (uses : List Use) (u : Use) :
    received i (uses ++ [u]) = received i uses ++ u.received (used uses) i := by
  rw [received, receivedFrom_append, receivedFrom, receivedFrom, List.append_nil]
  rfl

/-- What is waiting in a tree follows from what it waited for and the calls it received. -/
theorem pending_use (hw : w.Numbered) (u : Use) (i : Nat) :
    ((w.use u).tree i).pending =
      (u.received w i).foldl (fun p a => a.waiting p) (w.tree i).pending := by
  cases u with
  | look answer => rfl
  | call a =>
      cases hknown : w.knows a with
      | false => simp [use, perform, Use.received, hknown]
      | true =>
          rw [use, (effect_perform hw a).pending_eq hknown, Use.received]
          by_cases htree : a.tree? = some i
          · rw [if_pos htree, if_pos ⟨hknown, htree⟩]
            rfl
          · rw [if_neg htree, if_neg fun h => htree h.2]
            rfl

/-- The location that waits in a tree. -/
theorem pending_used (uses : List Use) (i : Nat) :
    ((used uses).tree i).pending = lastPlace? (received i uses) := by
  induction uses using List.reverseRecOn with
  | nil => rfl
  | append_singleton uses u ih =>
      rw [used_concat, pending_use (numbered_used uses), ih, received_concat]
      unfold Use.received
      split
      · split
        · rw [lastPlace?_concat]
          rfl
        · rw [List.append_nil]
          rfl
      · rw [List.append_nil]
        rfl

theorem of_mem_receivedFrom {uses : List Use} (h : a ∈ receivedFrom i w uses) :
    .call a ∈ uses ∧ a.tree? = some i := by
  induction uses generalizing w with
  | nil => cases h
  | cons u later ih =>
      rcases List.mem_append.mp h with hu | hlater
      · cases u with
        | look answer => cases hu
        | call b =>
            rw [Use.received] at hu
            split at hu
            · next hreceived =>
              obtain rfl := List.mem_singleton.mp hu
              exact ⟨List.mem_cons_self, hreceived.2⟩
            · cases hu
      · exact ⟨List.mem_cons_of_mem _ (ih hlater).1, (ih hlater).2⟩

/-- Calls that neither build a node nor set a location leave the last one alone. -/
theorem lastPlace?_append (calls : List Action) {between : List Action}
    (h : ∀ a ∈ between, a.isBuild = false ∧ a.place? = none) :
    lastPlace? (calls ++ between) = lastPlace? calls := by
  induction between using List.reverseRecOn with
  | nil => rw [List.append_nil]
  | append_singleton between a ih =>
      obtain ⟨hbetween, ha⟩ := List.forall_mem_append.mp h
      obtain ⟨hbuild, hplace⟩ := ha a List.mem_cons_self
      rw [← List.append_assoc, lastPlace?_concat, ih hbetween, Action.waiting, hbuild, hplace]
      rfl

/-- A location waits while nothing else than a location or a node replaces it. -/
theorem lastPlace?_received {before between : List Use} {loc : SourceLocation}
    (hi : i < (used before).trees.size)
    (h : ∀ a, .call a ∈ between → a.tree? = some i → a.isBuild = false ∧ a.place? = none) :
    lastPlace? (received i (before ++ .call (.atLocation i loc) :: between)) = some loc := by
  have hreceived : (Use.call (.atLocation i loc)).received (used before) i = [.atLocation i loc] :=
    if_pos ⟨decide_eq_true hi, rfl⟩
  have hsplit := received_concat (i := i) before (.call (.atLocation i loc))
  rw [List.append_cons, received, receivedFrom_append, lastPlace?_append, ← received, hsplit,
    hreceived, lastPlace?_concat]
  · rfl
  · intro a ha
    obtain ⟨hmem, htree⟩ := of_mem_receivedFrom ha
    exact h a hmem htree

/-! ## The location of a node -/

theorem change_use (uses : List Use) (a : Action) (i : Nat) :
    Change i ((used uses).tree i) a ((used uses).perform a).1
      ((used (uses ++ [.call a])).tree i) := by
  rw [used_concat]
  exact (effect_perform (numbered_used uses) a).change knows_of_extends

/-- A node that a call finds or builds. -/
theorem Change.has_or_built {tree tree' : Tree} (h : Change i tree a o tree') (hid : tree'.Has id) :
    tree.Has id ∨ ∃ draft, a = .build i draft ∧ o = .built id := by
  have same : tree'.id = tree.id → tree'.size = tree.size → tree.Has id := by
    intro hids hsizes
    exact ⟨hids ▸ hid.1, hsizes ▸ hid.2⟩
  cases h with
  | kept hids hnodes => exact .inl (same hids (congrArg Array.size hnodes))
  | lengthened hlong => exact .inl (same hlong.id_eq hlong.size_eq)
  | commented hcommented => exact .inl (same hcommented.id_eq hcommented.size_eq)
  | @grown draft _ _ _ _ hgrown =>
      by_cases hnext : id = tree.nextId
      · exact .inr ⟨draft, rfl, congrArg Outcome.built hnext.symm⟩
      · obtain ⟨node, hnode⟩ := has_iff.mp hid
        rw [hgrown.kept id hnext] at hnode
        obtain ⟨old, hold, -⟩ := map_eq_ok_iff.mp hnode
        exact .inl (has_of_node hold)

/-- Every node was built by a constructor call. -/
theorem exists_building {uses : List Use} (h : ((used uses).tree i).Has id) :
    ∃ before draft later, uses = before ++ .call (.build i draft) :: later ∧
      ((used before).perform (.build i draft)).1 = .built id := by
  induction uses using List.reverseRecOn with
  | nil => exact (Nat.not_lt_zero _ h.2).elim
  | append_singleton uses u ih =>
      have hlast : ((used uses).tree i).Has id ∨
          ∃ draft, u = .call (.build i draft) ∧
            ((used uses).perform (.build i draft)).1 = .built id := by
        cases u with
        | look answer =>
            rw [used_concat] at h
            exact .inl h
        | call a =>
            refine ((change_use uses a i).has_or_built h).imp_right ?_
            rintro ⟨draft, rfl, hbuilt⟩
            exact ⟨draft, rfl, hbuilt⟩
      rcases hlast with hid | ⟨draft, rfl, hbuilt⟩
      · obtain ⟨before, draft, later, rfl, hbuilt⟩ := ih hid
        exact ⟨before, draft, later ++ [u], by simp, hbuilt⟩
      · exact ⟨uses, draft, [], rfl, hbuilt⟩

/-- A node has the location that waited when it was built. -/
theorem loc_of_built {uses : List Use} {draft : Draft}
    (h : ((used uses).perform (.build i draft)).1 = .built id) :
    ∃ node, ((used (uses ++ [.call (.build i draft)])).tree i).node id = .ok node ∧
      node.loc = (lastPlace? (received i uses)).getD .unknown := by
  have hchange := change_use uses (.build i draft) i
  rw [h] at hchange
  cases hchange with
  | kept _ _ hnot => exact (hnot rfl).elim
  | grown _ hgrown =>
      refine ⟨_, hgrown.added, ?_⟩
      rw [← pending_used]
      rfl

/-- A node keeps its location. -/
theorem loc_used_append (uses later : List Use) {old : Node}
    (h : ((used uses).tree i).node id = .ok old) :
    ∃ node, ((used (uses ++ later)).tree i).node id = .ok node ∧ node.loc = old.loc := by
  rw [used_eq_run] at h
  obtain ⟨node, hnode, hpersists⟩ := persists_run_append _ (later.filterMap Use.call?) h
  refine ⟨node, ?_, hpersists.loc_eq⟩
  rwa [used_eq_run, List.filterMap_append]

/-- Every node was built by a constructor call on its tree, and its location is the one that
was set last for the tree since the constructor call before, whether that one succeeded or
failed. A location that is set stays the last one whatever is done that neither builds a node
in the tree nor sets a location for it. -/
theorem located_used (uses : List Use) (i : Nat) :
    (∀ id, ((used uses).tree i).Has id → ∃ before draft later,
      uses = before ++ .call (.build i draft) :: later ∧
        ((used before).perform (.build i draft)).1 = .built id) ∧
    (∀ before draft later id, uses = before ++ .call (.build i draft) :: later →
      ((used before).perform (.build i draft)).1 = .built id →
        ∃ node, ((used uses).tree i).node id = .ok node ∧
          node.loc = (lastPlace? (received i before)).getD .unknown) ∧
    ∀ before loc between, i < (used before).trees.size →
      (∀ a, .call a ∈ between → a.tree? = some i → a.isBuild = false ∧ a.place? = none) →
        lastPlace? (received i (before ++ .call (.atLocation i loc) :: between)) = some loc := by
  refine ⟨fun id => exists_building, ?_, fun before loc between => lastPlace?_received⟩
  rintro before draft later id rfl hbuilt
  obtain ⟨old, hold, hloc⟩ := loc_of_built hbuilt
  obtain ⟨node, hnode, hkept⟩ := loc_used_append _ later hold
  rw [← List.append_cons] at hnode
  exact ⟨node, hnode, hkept.trans hloc⟩

/-- Two trees, a constructor call that fails, and uses between a location and its node. -/
def interleaved : List Use :=
  [.call .newTree, .call .newTree,
    .call (.build 0 (.block "body" [])),
    .call (.atLocation 0 ⟨9, 9⟩),
    .call (.build 0 (.unary "?" ⟨0, 0⟩)),
    .call (.build 0 .breaking),
    .call (.atLocation 0 ⟨1, 1⟩),
    .call (.atLocation 0 ⟨4, 2⟩),
    .call (.append 0 ⟨0, 0⟩ ⟨0, 1⟩),
    .call (.setComment 0 ⟨0, 0⟩ "note"),
    .look fun w => (w.tree 0).toDatum ⟨0, 0⟩ .full,
    .call (.atLocation 1 ⟨7, 7⟩),
    .call (.build 1 .breaking)]

/-- A failed call and other trees in between leave the rule as it is. -/
theorem located_used_interleaved :
    let uses := interleaved ++ [.call (.build 0 .continuing)]
    ((used interleaved).perform (.build 0 .continuing)).1 = .built ⟨0, 2⟩ ∧
      lastPlace? (received 0 interleaved) = some ⟨4, 2⟩ ∧
      (∃ node, ((used uses).tree 0).node ⟨0, 2⟩ = .ok node ∧ node.loc = ⟨4, 2⟩) ∧
      (∃ node, ((used uses).tree 0).node ⟨0, 1⟩ = .ok node ∧ node.loc = .unknown) ∧
      ∃ before draft later, uses = before ++ .call (.build 0 draft) :: later ∧
        ((used before).perform (.build 0 draft)).1 = .built ⟨0, 1⟩ := by
  intro uses
  obtain ⟨hbuilding, hlocated, hwaits⟩ := located_used uses 0
  have hbuilt : ((used interleaved).perform (.build 0 .continuing)).1 = .built ⟨0, 2⟩ := by rfl
  have hbetween : ∀ a, .call a ∈ interleaved.drop 8 → a.tree? = some 0 →
      a.isBuild = false ∧ a.place? = none := by
    intro a ha htree
    simp only [interleaved, List.drop_succ_cons, List.drop_zero, List.mem_cons, Use.call.injEq,
      reduceCtorEq, List.not_mem_nil, or_false, false_or] at ha
    rcases ha with rfl | rfl | rfl | rfl
    · exact ⟨rfl, rfl⟩
    · exact ⟨rfl, rfl⟩
    · cases htree
    · cases htree
  refine ⟨hbuilt, ?_, ?_, ?_, ?_⟩
  · exact hwaits (interleaved.take 7) ⟨4, 2⟩ (interleaved.drop 8) (by decide) hbetween
  · exact hlocated interleaved .continuing [] ⟨0, 2⟩ rfl hbuilt
  · exact hlocated (interleaved.take 5) .breaking (uses.drop 6) ⟨0, 1⟩ rfl rfl
  · exact hbuilding ⟨0, 1⟩ ⟨rfl, by decide⟩

end TypedSyntax.Workspace
