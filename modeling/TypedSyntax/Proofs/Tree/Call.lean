import TypedSyntax.Proofs.Tree.Sound

/-!
# Calls of functions of a tree

A call binds its arguments to the parameters by position. It is checked by the
types at those positions and by a count: there are no fewer arguments than
parameters without a default. The count makes sure that the other parameters
have defaults exactly when no parameter without a default follows one with a
default.
-/

namespace TypedSyntax

/-- A parameter and the node of its default. -/
abbrev Formal :=
  Parameter × Option NodeId

/-- The parameters with a default come after those without. -/
def DefaultsLast (formals : List Formal) : Prop :=
  formals.Pairwise fun p q => p.2.isSome → q.2.isSome

instance (formals : List Formal) : Decidable (DefaultsLast formals) :=
  inferInstanceAs (Decidable (formals.Pairwise fun p q => p.2.isSome → q.2.isSome))

/-- The number of parameters without a default. -/
def requiredCount (formals : List Formal) : Nat :=
  formals.countP (·.2.isNone)

/-- Required parameters are counted on both sides of a position. -/
theorem requiredCount_take_add (formals : List Formal) (n : Nat) :
    requiredCount (formals.take n) + requiredCount (formals.drop n) = requiredCount formals := by
  unfold requiredCount
  rw [← List.countP_append, List.take_append_drop]

theorem requiredCount_eq_zero_iff {formals : List Formal} :
    requiredCount formals = 0 ↔ ∀ p ∈ formals, p.2.isSome = true := by
  simp [requiredCount, List.countP_eq_zero, Option.isSome_iff_ne_none]

theorem requiredCount_eq_length_iff {formals : List Formal} :
    requiredCount formals = formals.length ↔ ∀ p ∈ formals, p.2 = none := by
  simp [requiredCount, List.countP_eq_length]

theorem requiredCount_le_length (formals : List Formal) :
    requiredCount formals ≤ formals.length :=
  List.countP_le_length

/-- The count of the arguments is right about the defaults of the parameters
without an argument, for every number of arguments, exactly when the defaults
come last. -/
theorem defaultsLast_iff {formals : List Formal} :
    DefaultsLast formals ↔ ∀ n ≤ formals.length, requiredCount formals ≤ n →
      ∀ p ∈ formals.drop n, p.2.isSome = true := by
  constructor
  · intro hlast n hn hcount p hp
    by_contra hnone
    have hcross : ∀ q ∈ formals.take n, q.2.isSome → p.2.isSome := by
      rw [DefaultsLast, ← List.take_append_drop n formals, List.pairwise_append] at hlast
      exact fun q hq => hlast.2.2 q hq p hp
    have hbound : requiredCount (formals.take n) = (formals.take n).length := by
      rw [requiredCount_eq_length_iff]
      exact fun q hq => Option.not_isSome_iff_eq_none.mp fun h => hnone (hcross q hq h)
    have hzero : requiredCount (formals.drop n) = 0 := by
      have hsum := requiredCount_take_add formals n
      rw [hbound, List.length_take, Nat.min_eq_left hn] at hsum
      omega
    exact hnone (requiredCount_eq_zero_iff.mp hzero p hp)
  · intro h
    have hdrop := h _ (requiredCount_le_length formals) (Nat.le_refl _)
    have htake : ∀ p ∈ formals.take (requiredCount formals), p.2 = none := by
      rw [← requiredCount_eq_length_iff, List.length_take,
        Nat.min_eq_left (requiredCount_le_length formals)]
      have hsum := requiredCount_take_add formals (requiredCount formals)
      rw [requiredCount_eq_zero_iff.mpr hdrop] at hsum
      exact hsum
    rw [DefaultsLast, ← List.take_append_drop (requiredCount formals) formals,
      List.pairwise_append]
    refine ⟨?_, ?_, fun _ _ q hq _ => hdrop q hq⟩
    · exact List.pairwise_of_forall_mem_list fun p hp _ _ hsome => by simp [htake p hp] at hsome
    · exact List.pairwise_of_forall_mem_list fun _ _ q hq _ => hdrop q hq

namespace Tree

variable {tree : Tree} {callee : NodeId} {signature : Signature} {declared arguments : List NodeId}
  {formals : List Formal}

/-- The prototype of a function, which is given by the prototype itself or by
its definition. -/
inductive HasPrototype (tree : Tree) (callee : NodeId) (signature : Signature)
    (declared : List NodeId) : Prop
  | itself : tree.payload callee = .ok (.prototype signature declared) →
      HasPrototype tree callee signature declared
  | definition {head body} : tree.payload callee = .ok (.function head body) →
      tree.payload head = .ok (.prototype signature declared) →
      HasPrototype tree callee signature declared

/-- An argument node that declares a parameter. -/
def Declares (tree : Tree) (id : NodeId) (p : Formal) : Prop :=
  tree.payload id = .ok (.argument p.1 p.2)

/-- A function with its signature and parameters. -/
def HasFormals (tree : Tree) (callee : NodeId) (signature : Signature)
    (formals : List Formal) : Prop :=
  ∃ declared, tree.HasPrototype callee signature declared ∧
    List.Forall₂ tree.Declares declared formals

/-- No argument is left over, and each suits the parameter at its position. -/
structure Passes (tree : Tree) (formals : List Formal) (arguments : List NodeId) : Prop where
  length_le : arguments.length ≤ formals.length
  suits : ∀ pair ∈ formals.zip arguments, tree.Suits pair.1.1.type pair.2

/-- Every parameter gets an argument that suits it or has a default. -/
structure Supplies (tree : Tree) (formals : List Formal) (arguments : List NodeId) : Prop extends
    tree.Passes formals arguments where
  defaults : ∀ p ∈ formals.drop arguments.length, p.2.isSome = true

/-- With defaults last, enough arguments leave only parameters with a default. -/
theorem Passes.supplies (h : tree.Passes formals arguments) (hlast : DefaultsLast formals)
    (hcount : requiredCount formals ≤ arguments.length) : tree.Supplies formals arguments :=
  { h with defaults := defaultsLast_iff.mp hlast _ h.length_le hcount }

/-- Every parameter without a default needs an argument. -/
theorem Supplies.requiredCount_le (h : tree.Supplies formals arguments) :
    requiredCount formals ≤ arguments.length := by
  calc
    requiredCount formals = requiredCount (formals.take arguments.length) := by
      rw [← requiredCount_take_add formals arguments.length,
        requiredCount_eq_zero_iff.mpr h.defaults, Nat.add_zero]
    _ ≤ (formals.take arguments.length).length := requiredCount_le_length _
    _ ≤ arguments.length := List.length_take_le _ _

theorem exists_payload_of_hasKind {kind : Kind} (h : tree.HasKind kind callee) :
    ∃ p, tree.payload callee = .ok p ∧ p.kind = kind := by
  obtain ⟨node, hnode, hkind⟩ := map_eq_ok_iff.mp h
  exact ⟨node.payload, payload_eq_ok_iff.mpr ⟨node, hnode, rfl⟩, hkind⟩

theorem exists_formals_of_arguments (h : ∀ id ∈ declared, tree.HasKind .argument id) :
    ∃ formals, List.Forall₂ tree.Declares declared formals := by
  apply exists_forall₂
  intro id hid
  obtain ⟨payload, hpayload, hkind⟩ := exists_payload_of_hasKind (h id hid)
  cases payload with
  | argument parameter default => exact ⟨(parameter, default), hpayload⟩
  | _ => cases hkind

/-- A prototype has parameters, which its argument nodes declare. -/
theorem WellFormed.exists_prototype (ht : WellFormed tree) {head : NodeId}
    (hhead : tree.HasKind .prototype head) :
    ∃ signature declared formals, tree.payload head = .ok (.prototype signature declared) ∧
      List.Forall₂ tree.Declares declared formals := by
  obtain ⟨payload, hpayload, hkind⟩ := exists_payload_of_hasKind hhead
  cases ht head payload hpayload with
  | @prototype signature declared hdeclared =>
      obtain ⟨formals, hformals⟩ := exists_formals_of_arguments hdeclared
      exact ⟨signature, declared, formals, hpayload, hformals⟩
  | _ => cases hkind

/-- In a well-formed tree every function has parameters. -/
theorem WellFormed.exists_formals (ht : WellFormed tree)
    (hcallee : tree.HasKind .function callee ∨ tree.HasKind .prototype callee) :
    ∃ signature formals, tree.HasFormals callee signature formals := by
  rcases hcallee with hcallee | hcallee
  · obtain ⟨payload, hpayload, hkind⟩ := exists_payload_of_hasKind hcallee
    cases ht callee payload hpayload with
    | function hhead =>
        obtain ⟨signature, declared, formals, hprototype, hformals⟩ := ht.exists_prototype hhead
        exact ⟨signature, formals, declared, .definition hpayload hprototype, hformals⟩
    | _ => cases hkind
  · obtain ⟨signature, declared, formals, hpayload, hformals⟩ := ht.exists_prototype hcallee
    exact ⟨signature, formals, declared, .itself hpayload, hformals⟩

/-! ## When the check of a call succeeds -/

/-- The prototype of a callee is its own or that of its head. -/
theorem calleePrototype_eq_ok_iff :
    tree.calleePrototype callee = .ok (signature, declared) ↔
      tree.HasPrototype callee signature declared := by
  simp only [calleePrototype, bind_eq_ok_iff, look_eq_ok_iff]
  constructor
  · rintro ⟨payload, hpayload, h⟩
    split at h
    · obtain ⟨rfl, rfl⟩ := Prod.mk.inj (pure_eq_ok_iff.mp h)
      exact .itself hpayload
    · simp only [bind_eq_ok_iff, look_eq_ok_iff] at h
      obtain ⟨payload, hhead, h⟩ := h
      split at h
      · obtain ⟨rfl, rfl⟩ := Prod.mk.inj (pure_eq_ok_iff.mp h)
        exact .definition hpayload hhead
      · cases h
    · cases h
  · rintro (hpayload | ⟨hpayload, hhead⟩)
    · exact ⟨_, hpayload, rfl⟩
    · refine ⟨_, hpayload, ?_⟩
      simp only [bind_eq_ok_iff, look_eq_ok_iff]
      exact ⟨_, hhead, rfl⟩

/-- What the check of a call reads of the parameters. -/
theorem parameters_eq (h : List.Forall₂ tree.Declares declared formals) :
    declared.mapM (parameter? tree) = .ok (formals.map fun p => some (p.1, p.2.isSome)) := by
  rw [mapM_eq_ok_iff, List.forall₂_map_right_iff]
  apply h.imp
  intro id p hp
  simp only [parameter?, bind_eq_ok_iff, look_eq_ok_iff]
  exact ⟨_, hp, rfl⟩

/-- Arguments are checked one by one, as far as there are parameters. -/
theorem expectArguments_eq_ok_iff :
    expectArguments tree (formals.map fun p => (p.1, p.2.isSome)) arguments = .ok () ↔
      ∀ pair ∈ formals.zip arguments, tree.Suits pair.1.1.type pair.2 := by
  simp only [expectArguments, forM_eq_ok_iff, List.zip_map_left, List.forall_mem_map,
    bind_eq_ok_iff, expressionType_eq_ok_iff, expectAccepted_eq_ok_iff]
  rfl

/-- A call is accepted exactly when its arguments pass and are enough by their
number. -/
theorem callPayload_eq_ok_iff (h : tree.HasFormals callee signature formals)
    {payload : Payload NodeId} :
    callPayload tree callee arguments = .ok payload ↔
      tree.Passes formals arguments ∧ requiredCount formals ≤ arguments.length ∧
        payload = .call signature.name arguments signature.returnType := by
  obtain ⟨declared, hprototype, hformals⟩ := h
  have hfound : (formals.map fun p => some (p.1, p.2.isSome)).filterMap (fun found => found) =
      formals.map fun p => (p.1, p.2.isSome) := by
    rw [List.filterMap_map]
    exact congrFun List.filterMap_eq_map formals
  have hrequired : (formals.map fun p => (p.1, p.2.isSome)).countP (fun p => !p.2) =
      requiredCount formals := by
    simp [requiredCount, List.countP_map, Function.comp_def]
  rw [callPayload, calleePrototype_eq_ok_iff.mpr hprototype, ok_bind]
  simp only [parameters_eq hformals, ok_bind, hfound, hrequired, List.length_map]
  split
  · next harity =>
    constructor
    · intro h
      cases h
    · rintro ⟨hpasses, hcount, -⟩
      have hlength := hpasses.length_le
      omega
  · next harity =>
    rw [check_bind_eq_ok_iff, expectArguments_eq_ok_iff, pure_eq_ok_iff]
    constructor
    · rintro ⟨hsuits, rfl⟩
      exact ⟨⟨by omega, hsuits⟩, by omega, rfl⟩
    · rintro ⟨hpasses, -, rfl⟩
      exact ⟨hpasses.suits, rfl⟩

end Tree

namespace Workspace

variable {w after : Workspace} {i : Nat} {draft : Draft} {id : NodeId} {payload : Payload NodeId}

theorem lt_size_of_hasKind {kind : Kind} (h : (w.tree i).HasKind kind id) :
    i < w.trees.size :=
  lt_size_of_has h.has

/-- A node that is built has the payload that its draft was checked for. -/
theorem payload_of_built (hw : w.Numbered) (hi : i < w.trees.size)
    (h : w.perform (.build i draft) = (.built id, after)) :
    ∃ payload, (w.tree i).payload? draft = .ok payload ∧
      (after.tree i).payload id = .ok payload := by
  have heffect := effect_perform hw (.build i draft)
  rw [h] at heffect
  cases heffect with
  | @built _ _ payload tree hpayload hgrown =>
      have htree : ({ w.withTree i tree with nextTag := w.nextTag + 1 } : Workspace).tree i =
          tree := (tree_withTree hi i).trans (if_pos rfl)
      rw [htree]
      exact ⟨payload, hpayload, Tree.payload_eq_ok_iff.mpr ⟨_, hgrown.added, rfl⟩⟩

/-- A draft with a valid payload and free children is built. -/
theorem exists_built (hw : w.Numbered) (hi : i < w.trees.size)
    (hpayload : (w.tree i).payload? draft = .ok payload)
    (hfree : ∀ c ∈ payload.children, (w.tree i).Free c) (hnodup : payload.children.Nodup) :
    ∃ id after, w.perform (.build i draft) = (.built id, after) := by
  have heffect := effect_perform hw (.build i draft)
  generalize w.perform (.build i draft) = result at heffect ⊢
  obtain ⟨outcome, after⟩ := result
  cases heffect with
  | unknown hknown => exact absurd (decide_eq_true hi) (Bool.eq_false_iff.mp hknown)
  | unbuilt h => exact absurd hnodup (h payload hpayload hfree)
  | built => exact ⟨_, _, rfl⟩

/-- After every run, a function of a tree has parameters. The arguments of a call
that is built pass and are enough by their number, and supply all parameters
where the defaults come last. Every call whose arguments supply the parameters
and are free and different is built. -/
theorem call_run (actions : List Action) (i : Nat) (callee : NodeId)
    (hcallee : ((run actions).tree i).HasKind .function callee ∨
      ((run actions).tree i).HasKind .prototype callee) :
    (∃ signature formals, ((run actions).tree i).HasFormals callee signature formals) ∧
      ∀ signature formals, ((run actions).tree i).HasFormals callee signature formals →
        ∀ arguments,
          (∀ call after,
            (run actions).perform (.build i (.call callee arguments)) = (.built call, after) →
              ((run actions).tree i).Passes formals arguments ∧
                requiredCount formals ≤ arguments.length ∧
                (DefaultsLast formals → ((run actions).tree i).Supplies formals arguments) ∧
                (after.tree i).payload call =
                  .ok (.call signature.name arguments signature.returnType)) ∧
          (((run actions).tree i).Supplies formals arguments →
            (∀ a ∈ arguments, ((run actions).tree i).Free a) → arguments.Nodup →
              ∃ call after,
                (run actions).perform (.build i (.call callee arguments)) =
                  (.built call, after)) := by
  have hnumbered := numbered_run actions
  have hi : i < (run actions).trees.size :=
    hcallee.elim lt_size_of_hasKind lt_size_of_hasKind
  refine ⟨(Tree.sound_run actions i).wellFormed.exists_formals hcallee, ?_⟩
  intro signature formals hformals arguments
  constructor
  · intro call after hperform
    obtain ⟨payload, hchecked, hpayload⟩ := payload_of_built hnumbered hi hperform
    obtain ⟨hpasses, hcount, rfl⟩ := (Tree.callPayload_eq_ok_iff hformals).mp hchecked
    exact ⟨hpasses, hcount, fun hlast => hpasses.supplies hlast hcount, hpayload⟩
  · intro hsupplies hfree hnodup
    have hchecked := (Tree.callPayload_eq_ok_iff hformals).mpr
      ⟨hsupplies.toPasses, hsupplies.requiredCount_le, rfl⟩
    exact exists_built hnumbered hi hchecked hfree hnodup

/-- A run that builds two parameters, the first with a default, a prototype with
some of them, and an argument. -/
def prototypeWithDefault (declared : List NodeId) : List Action :=
  [.newTree,
    .build 0 (.plain (.signed .w32 1)),
    .build 0 (.argument ⟨"x", .int true .w32, .constant⟩ (some ⟨0, 0⟩)),
    .build 0 (.argument ⟨"y", .int true .w32, .constant⟩ none),
    .build 0 (.prototype ⟨"f", .int true .w32, .global, .public, .constant⟩ declared),
    .build 0 (.plain (.signed .w32 5))]

/-- With the default last, one argument is enough. -/
theorem call_defaultLast :
    let w := run (prototypeWithDefault [⟨0, 2⟩, ⟨0, 1⟩])
    let formals : List Formal := [(⟨"y", .int true .w32, .constant⟩, none),
      (⟨"x", .int true .w32, .constant⟩, some ⟨0, 0⟩)]
    (w.tree 0).HasKind .prototype ⟨0, 3⟩ ∧
      (w.tree 0).HasFormals ⟨0, 3⟩ ⟨"f", .int true .w32, .global, .public, .constant⟩ formals ∧
      DefaultsLast formals ∧ (w.tree 0).Supplies formals [⟨0, 4⟩] ∧ (w.tree 0).Free ⟨0, 4⟩ ∧
      ∃ call after, w.perform (.build 0 (.call ⟨0, 3⟩ [⟨0, 4⟩])) = (.built call, after) ∧
        (after.tree 0).payload call = .ok (.call "f" [⟨0, 4⟩] (.int true .w32)) := by
  intro w formals
  have hcallee : (w.tree 0).HasKind .prototype ⟨0, 3⟩ := rfl
  have hformals : (w.tree 0).HasFormals ⟨0, 3⟩
      ⟨"f", .int true .w32, .global, .public, .constant⟩ formals :=
    ⟨[⟨0, 2⟩, ⟨0, 1⟩], .itself rfl, .cons rfl (.cons rfl .nil)⟩
  have hlast : DefaultsLast formals := by decide
  have hsupplies : (w.tree 0).Supplies formals [⟨0, 4⟩] := {
    length_le := by decide
    suits := List.forall_mem_singleton.mpr ⟨.int true .w32, rfl, rfl⟩
    defaults := List.forall_mem_singleton.mpr rfl }
  have hfree : (w.tree 0).Free ⟨0, 4⟩ := ⟨_, rfl, rfl⟩
  obtain ⟨hbuilt, hsupplied⟩ := (call_run _ 0 ⟨0, 3⟩ (Or.inr hcallee)).2 _ _ hformals [⟨0, 4⟩]
  obtain ⟨call, after, hperform⟩ :=
    hsupplied hsupplies (List.forall_mem_singleton.mpr hfree) (List.nodup_singleton _)
  exact ⟨hcallee, hformals, hlast, hsupplies, hfree, call, after, hperform,
    (hbuilt call after hperform).2.2.2⟩

/-- With the default first, one argument is enough as well, but goes to the
parameter with the default. -/
theorem call_defaultFirst :
    let w := run (prototypeWithDefault [⟨0, 1⟩, ⟨0, 2⟩])
    let formals : List Formal := [(⟨"x", .int true .w32, .constant⟩, some ⟨0, 0⟩),
      (⟨"y", .int true .w32, .constant⟩, none)]
    (w.tree 0).HasFormals ⟨0, 3⟩ ⟨"f", .int true .w32, .global, .public, .constant⟩ formals ∧
      (w.perform (.build 0 (.call ⟨0, 3⟩ [⟨0, 4⟩]))).1 = .built ⟨0, 5⟩ ∧
      ¬ (w.tree 0).Supplies formals [⟨0, 4⟩] := by
  refine ⟨⟨[⟨0, 1⟩, ⟨0, 2⟩], .itself rfl, .cons rfl (.cons rfl .nil)⟩, rfl, ?_⟩
  intro hsupplies
  exact absurd (hsupplies.defaults _ (List.mem_singleton_self _)) (by decide)

end Workspace

end TypedSyntax
