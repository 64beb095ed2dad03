import Mathlib.Data.List.Infix
import TypedSyntax.Proofs.SymbolTable.Run

/-!
# Guarded scopes bracket their bodies

When a guarded scope is left, the table is the one from before it was entered,
except for the updates of the body that found their name below: whatever else
the body defined, opened, closed or tried is gone. The invariant of a body is
that the scopes from before stand under the floor.
-/

namespace TypedSyntax

variable {name : String} {node : NodeId}

/-- The second scope is the first with another node bound to one of its
names. -/
structure Scope.Rebound (scope : Scope) (name : String) (node : NodeId) (scope' : Scope) :
    Prop where
  bound : scope.contains name = true
  name_eq : scope'.name = scope.name
  names_eq : scope'.bindings.map (·.1) = scope.bindings.map (·.1)
  get?_eq : ∀ other, scope'.get? other = if other = name then some node else scope.get? other

theorem Scope.rebind_key (binding : String × NodeId) :
    (if binding.1 == name then (name, node) else binding).1 = binding.1 := by
  split
  · next he => exact (eq_of_beq he).symm
  · rfl

/-- In a scope that binds the name, an update changes this binding only. -/
theorem Scope.get?_rebind {scope : Scope} (h : scope.contains name = true) (other : String) :
    (scope.rebind name node).get? other = if other = name then some node else scope.get? other := by
  have hfind : (scope.rebind name node).bindings.find? (·.1 == other) =
      (scope.bindings.find? (·.1 == other)).map fun binding =>
        if binding.1 == name then (name, node) else binding := by
    rw [rebind, List.find?_map]
    congr 2
    funext binding
    exact congrArg (· == other) (rebind_key binding)
  rw [get?, get?, hfind, Option.map_map]
  cases hfound : scope.bindings.find? (·.1 == other) with
  | none =>
      have hother : other ≠ name := by
        rintro rfl
        obtain ⟨binding, hmem, hname⟩ := List.any_eq_true.mp h
        exact List.find?_eq_none.mp hfound binding hmem hname
      simp [hother]
  | some binding =>
      have hname : binding.1 = other := by simpa using List.find?_some hfound
      by_cases hother : other = name <;> simp [hname, hother]

theorem Scope.rebound_rebind {scope : Scope} (h : scope.contains name = true) :
    scope.Rebound name node (scope.rebind name node) where
  bound := h
  name_eq := rfl
  names_eq := by
    rw [rebind, List.map_map]
    exact List.map_congr_left fun binding _ => rebind_key binding
  get?_eq := get?_rebind h

namespace SymbolTable

variable {table : SymbolTable} {outer inner : List Scope}

/-- The second stack is the first after some updates in order, each made in
the innermost scope that binds its name. -/
inductive Rebinds : List (String × NodeId) → List Scope → List Scope → Prop
  | nil {stack} : Rebinds [] stack stack
  | cons {name node updates above scope scope' below stack} :
      (∀ s ∈ above, s.contains name = false) → scope.Rebound name node scope' →
      Rebinds updates (above ++ scope' :: below) stack →
      Rebinds ((name, node) :: updates) (above ++ scope :: below) stack

theorem Rebinds.length_eq {updates : List (String × NodeId)} {stack stack' : List Scope}
    (h : Rebinds updates stack stack') : stack'.length = stack.length := by
  induction h with
  | nil => rfl
  | cons _ _ _ ih => simpa using ih

/-- Updates are made one after the other. -/
theorem Rebinds.append {first second : List (String × NodeId)} {stack middle stack' : List Scope}
    (h : Rebinds first stack middle) (h' : Rebinds second middle stack') :
    Rebinds (first ++ second) stack stack' := by
  induction h with
  | nil => exact h'
  | cons habove hrebound _ ih => exact Rebinds.cons habove hrebound (ih h')

/-- An update rebinds the innermost scope that binds the name. -/
theorem rebinds_rebindFirst {stack : List Scope}
    (h : stack.any (·.contains name) = true) :
    Rebinds [(name, node)] stack (rebindFirst name node stack) := by
  have hsplit : ∃ above scope below, stack = above ++ scope :: below ∧
      (∀ s ∈ above, s.contains name = false) ∧ scope.contains name = true ∧
      rebindFirst name node stack = above ++ scope.rebind name node :: below := by
    induction stack with
    | nil => simp at h
    | cons scope rest ih =>
        by_cases hscope : scope.contains name = true
        · exact ⟨[], scope, rest, rfl, List.forall_mem_nil _, hscope, by
            simp [rebindFirst, hscope]⟩
        · obtain ⟨above, found, below, rfl, habove, hfound, hrest⟩ := ih (by simpa [hscope] using h)
          refine ⟨scope :: above, found, below, rfl, ?_, hfound, by
            simp [rebindFirst, hscope, hrest]⟩
          exact List.forall_mem_cons.mpr ⟨by simpa using hscope, habove⟩
  obtain ⟨above, scope, below, rfl, habove, hscope, hrest⟩ := hsplit
  rw [hrest]
  exact Rebinds.cons habove (Scope.rebound_rebind hscope) Rebinds.nil

/-- An update above some scopes reaches them only if none of the others binds
the name. -/
theorem rebindFirst_append (inner outer : List Scope) :
    rebindFirst name node (inner ++ outer) =
      if inner.any (·.contains name) then rebindFirst name node inner ++ outer
      else inner ++ rebindFirst name node outer := by
  induction inner with
  | nil => simp
  | cons scope rest ih =>
      by_cases hscope : scope.contains name = true
      · simp [rebindFirst, hscope]
      · rw [List.cons_append, rebindFirst, if_neg hscope, ih]
        by_cases hrest : rest.any (·.contains name) = true <;>
          simp [rebindFirst, hscope, hrest]

theorem length_rebindFirst (stack : List Scope) :
    (rebindFirst name node stack).length = stack.length := by
  induction stack with
  | nil => rfl
  | cons scope rest ih =>
      by_cases hscope : scope.contains name = true <;> simp [rebindFirst, hscope, ih]

/-! ## The body of a guarded scope -/

/-- The scopes above the lowest ones of some number. -/
def above (base : Nat) (table : SymbolTable) : List Scope :=
  table.stack.take (table.depth - base)

/-- Whether an update succeeds and finds its name in no scope above the lowest
ones. -/
def Update.escapes (base : Nat) (u : Update) : Bool :=
  (u.table.update u.name u.node).isOk && !(u.table.above base).any (·.contains u.name)

/-- What the updates that escape bind, in order. -/
def escaping (base : Nat) (calls : List Update) : List (String × NodeId) :=
  (calls.filter (·.escapes base)).map fun u => (u.name, u.node)

/-- The updates that escape do so in their order. -/
theorem escaping_append (base : Nat) (first second : List Update) :
    escaping base (first ++ second) = escaping base first ++ escaping base second := by
  simp [escaping]

/-- The lowest scopes of a table stand under its floor. -/
structure Beneath (outer : List Scope) (table : SymbolTable) : Prop where
  suffix : outer <:+ table.stack
  length_lt : outer.length < table.floor
  floor_le : table.floor ≤ table.depth

theorem above_eq (h : table.stack = inner ++ outer) : table.above outer.length = inner := by
  simp [above, depth, h]

/-- What is beneath a table is beneath it in a further scope. -/
theorem Beneath.enter (h : Beneath outer table) (name : String) :
    Beneath outer (table.enter name) where
  suffix := h.suffix.trans (List.suffix_cons _ _)
  length_lt := by
    rw [floor_enter]
    exact Nat.lt_succ_of_lt (Nat.lt_of_lt_of_le h.length_lt h.floor_le)
  floor_le := by simp [depth]

/-- A table with the same floor and a stack that reaches down to the same
scopes. -/
theorem Beneath.of_stack {after : SymbolTable} (h : Beneath outer table)
    (hstack : after.stack = inner ++ outer) (hfloor : after.floor = table.floor)
    (hdepth : table.floor ≤ after.depth) : Beneath outer after :=
  ⟨⟨inner, hstack.symm⟩, hfloor ▸ h.length_lt, hfloor ▸ hdepth⟩

/-- The innermost scope is none of those under the floor. -/
theorem Beneath.exists_inner (h : Beneath outer table) :
    ∃ inner, table.stack = table.current :: (inner ++ outer) ∧ table.outer = inner ++ outer := by
  obtain ⟨opened, hopened⟩ := h.suffix
  cases opened with
  | nil =>
      have hlength := congrArg List.length hopened
      have hlt := Nat.lt_of_lt_of_le h.length_lt h.floor_le
      rw [List.nil_append] at hlength
      unfold depth at hlt
      omega
  | cons scope inner =>
      obtain ⟨-, houter⟩ := List.cons.inj hopened
      exact ⟨inner, congrArg (table.current :: ·) houter.symm, houter.symm⟩

/-- What a call or a body does to the lowest scopes: only the escaping updates
change them. The floor is the same again. -/
structure Brackets (outer : List Scope) (table after : SymbolTable) (calls : List Update) :
    Prop where
  exists_outer : ∃ outer', Rebinds (escaping outer.length calls) outer outer' ∧ Beneath outer' after
  floor_eq : after.floor = table.floor

/-- A call without updates that leaves the lowest scopes and the floor. -/
theorem Beneath.brackets {after : SymbolTable} (h : Beneath outer after)
    (hfloor : after.floor = table.floor) : Brackets outer table after [] :=
  ⟨⟨outer, Rebinds.nil, h⟩, hfloor⟩

/-- An update reaches the outer scopes exactly if no inner one binds the name. -/
theorem Beneath.brackets_update (h : Beneath outer table) (name : String) (node : NodeId) :
    Brackets outer table (perform (.update name node) table).2 [⟨table, name, node⟩] := by
  obtain ⟨inner, hinner⟩ := h.suffix
  have habove : table.above outer.length = inner := above_eq hinner.symm
  cases hupdate : table.update name node with
  | error e =>
      have hnone : escaping outer.length [⟨table, name, node⟩] = [] := by
        simp [escaping, Update.escapes, hupdate, Except.isOk, Except.toBool]
      rw [perform, hupdate]
      exact ⟨⟨outer, hnone ▸ Rebinds.nil, h⟩, rfl⟩
  | ok after =>
      obtain ⟨hany, hstack, hfloor⟩ := stack_update hupdate
      rw [← hinner, rebindFirst_append] at hstack
      have hdepth : table.floor ≤ after.depth := by
        have hlength : after.depth = table.depth := by
          simp only [depth, ← hinner, hstack]
          split <;> simp [length_rebindFirst]
        exact hlength ▸ h.floor_le
      rw [perform, hupdate]
      by_cases hinside : inner.any (·.contains name) = true
      · have hnone : escaping outer.length [⟨table, name, node⟩] = [] := by
          simp [escaping, Update.escapes, habove, hinside]
        rw [if_pos hinside] at hstack
        exact ⟨⟨outer, hnone ▸ Rebinds.nil, h.of_stack hstack hfloor hdepth⟩, hfloor⟩
      · have hone : escaping outer.length [⟨table, name, node⟩] = [(name, node)] := by
          simp [escaping, Update.escapes, hupdate, Except.isOk, Except.toBool, habove, hinside]
        rw [if_neg hinside] at hstack
        have hbound : outer.any (·.contains name) = true := by
          rw [← hinner, List.any_append, Bool.or_eq_true] at hany
          exact hany.resolve_left hinside
        have hrebinds : Rebinds [(name, node)] outer (rebindFirst name node outer) :=
          rebinds_rebindFirst hbound
        refine ⟨⟨_, hone ▸ hrebinds, ⟨inner, hstack.symm⟩, ?_, hfloor ▸ hdepth⟩, hfloor⟩
        rw [hrebinds.length_eq, hfloor]
        exact h.length_lt

/-- Leaving a guarded scope cuts the stack back to the scopes from before. -/
theorem Beneath.brackets_leave {after : SymbolTable} {calls : List Update} (h : Beneath outer table)
    (hbody : Brackets outer (table.enter name) after calls) :
    Brackets outer table (after.leave table.floor) calls := by
  obtain ⟨⟨outer', hrebinds, hafter⟩, hfloor⟩ := hbody
  have hdepth : after.floor = table.depth + 1 := hfloor
  have hstack := stack_leave hdepth (Nat.succ_pos _) hafter.floor_le table.floor
  have hlength : (after.leave table.floor).depth = table.depth := by
    have hopen := hafter.floor_le
    rw [hdepth] at hopen
    rw [depth, hstack, List.length_drop, ← depth]
    omega
  have hbelow : outer'.length < table.floor := hrebinds.length_eq ▸ h.length_lt
  refine ⟨⟨outer', hrebinds, ?_, ?_, ?_⟩, floor_leave _⟩
  · apply List.suffix_of_suffix_length_le hafter.suffix (hstack ▸ List.drop_suffix _ _)
    have := h.floor_le
    rw [← depth, hlength]
    omega
  · rw [floor_leave]
    exact hbelow
  · rw [floor_leave, hlength]
    exact h.floor_le

mutual

/-- An action brings back the outer scopes up to the updates that escape from it. -/
theorem brackets_perform (a : Action) {outer : List Scope} {table : SymbolTable}
    (h : Beneath outer table) : Brackets outer table (perform a table).2 (updates a table) := by
  cases a with
  | define name node =>
      rw [perform]
      cases hdefine : table.define name node with
      | error e => exact h.brackets rfl
      | ok after =>
          obtain ⟨hstack, hfloor⟩ := stack_define hdefine
          obtain ⟨inner, hinner, houter⟩ := h.exists_inner
          rw [houter, ← List.cons_append] at hstack
          have hdepth : after.depth = table.depth := by simp [depth, hstack, hinner]
          exact (h.of_stack hstack hfloor (hdepth ▸ h.floor_le)).brackets hfloor
  | update name node => exact h.brackets_update name node
  | lookup name =>
      rw [perform]
      cases table.lookup name <;> exact h.brackets rfl
  | push name =>
      obtain ⟨inner, hinner⟩ := h.suffix
      have hstack : (table.push name).stack = (.new name :: inner) ++ outer := by
        simp [hinner]
      have hdepth : table.floor ≤ (table.push name).depth := by
        have := h.floor_le
        simp only [depth, stack_push, List.length_cons] at this ⊢
        omega
      exact (h.of_stack hstack rfl hdepth).brackets rfl
  | pop =>
      rw [perform]
      cases hpop : table.pop with
      | error e => exact h.brackets rfl
      | ok popped =>
          obtain ⟨scope, after⟩ := popped
          obtain ⟨hstack, hfloor, hlt⟩ := stack_pop hpop
          obtain ⟨inner, hinner, -⟩ := h.exists_inner
          have hafter : after.stack = inner ++ outer :=
            (List.cons.inj (hstack.symm.trans hinner)).2
          have hdepth : table.depth = after.depth + 1 := by simp [depth, hstack]
          exact (h.of_stack hafter hfloor (by omega)).brackets hfloor
  | guarded name body =>
      rw [perform_guarded, updates]
      exact h.brackets_leave (brackets_performAll body (h.enter name))

/-- So does every body. -/
theorem brackets_performAll (body : List Action) {outer : List Scope} {table : SymbolTable}
    (h : Beneath outer table) :
    Brackets outer table (performAll body table).2 (updatesAll body table) := by
  cases body with
  | nil => exact h.brackets rfl
  | cons a rest =>
      obtain ⟨⟨middle, hfirst, hmiddle⟩, hfloor⟩ := brackets_perform a h
      obtain ⟨⟨outer', hrest, hafter⟩, hfloor'⟩ := brackets_performAll rest hmiddle
      rw [hfirst.length_eq] at hrest
      rw [performAll_cons, updatesAll]
      exact ⟨⟨outer', by rw [escaping_append]; exact hfirst.append hrest, hafter⟩,
        hfloor'.trans hfloor⟩

end

/-- When a guarded scope is left, the stack is that from before it was entered,
changed only by the updates of the body that found their name in no scope
opened inside, and the floor is that from before. -/
theorem rebinds_withScope (table : SymbolTable) (name : String) (body : List Action) :
    Rebinds (escaping table.depth (updatesAll body (table.enter name))) table.stack
        (table.withScope name (performAll body)).2.stack ∧
      (table.withScope name (performAll body)).2.floor = table.floor := by
  have hinside : Beneath table.stack (table.enter name) := {
    suffix := List.suffix_cons _ _
    length_lt := Nat.lt_succ_self _
    floor_le := Nat.le_refl _ }
  obtain ⟨⟨outer, hrebinds, hafter⟩, hfloor⟩ := brackets_performAll body hinside
  have hwith : (table.withScope name (performAll body)).2 =
      (performAll body (table.enter name)).2.leave table.floor := rfl
  have hstack := stack_leave hfloor (Nat.succ_pos _) hafter.floor_le table.floor
  have houter : (performAll body (table.enter name)).2.stack.drop
      ((performAll body (table.enter name)).2.depth - table.depth) = outer := by
    obtain ⟨inner, hinner⟩ := hafter.suffix
    have hlength : outer.length = table.depth := hrebinds.length_eq
    rw [depth, ← hinner, ← hlength, List.length_append, Nat.add_sub_cancel, List.drop_left]
  rw [hwith, floor_leave, hstack]
  exact ⟨houter ▸ hrebinds, rfl⟩

/-- A definition inside hides the name from the first update, but not from the
one after it is gone. -/
example :
    let body : List Action := [.push "inner", .define "x" ⟨0, 1⟩, .update "x" ⟨0, 2⟩, .pop,
      .update "x" ⟨0, 3⟩, .update "y" ⟨0, 4⟩]
    escaping 1 (updatesAll body (SymbolTable.enter ⟨⟨"root", [("x", ⟨0, 0⟩)]⟩, [], 1⟩ "body")) =
      [("x", ⟨0, 3⟩)] := by
  decide

end SymbolTable

end TypedSyntax
