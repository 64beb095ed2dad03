import TypedSyntax.SymbolTable

/-!
# Calls on a symbol table

A run is a finite sequence of calls, each of which may fail. The body of a
guarded scope is a run of its own. What a call does to the stack of scopes is
described by equations, so that no later proof opens a table.
-/

namespace TypedSyntax.SymbolTable

/-- A call on a table. A guarded body runs in a scope of its own. -/
inductive Action where
  | define (name : String) (node : NodeId)
  | update (name : String) (node : NodeId)
  | lookup (name : String)
  | push (name : String)
  | pop
  | guarded (name : String) (body : List Action)

/-- How a call ends. -/
inductive Answer where
  | done
  | found (node : NodeId)
  | popped (scope : Scope)
  | refused (error : ScopeError)
  | ran (answers : List Answer)

mutual

/-- Makes a call. A refused call leaves the table as it is. -/
def perform : Action → SymbolTable → Answer × SymbolTable
  | .define name node, table =>
    match table.define name node with
    | .ok after => (.done, after)
    | .error e => (.refused e, table)
  | .update name node, table =>
    match table.update name node with
    | .ok after => (.done, after)
    | .error e => (.refused e, table)
  | .lookup name, table =>
    match table.lookup name with
    | .ok node => (.found node, table)
    | .error e => (.refused e, table)
  | .push name, table => (.done, table.push name)
  | .pop, table =>
    match table.pop with
    | .ok (scope, after) => (.popped scope, after)
    | .error e => (.refused e, table)
  | .guarded name body, table =>
    let (answers, after) := table.withScope name (performAll body)
    (.ran answers, after)

/-- Makes some calls one after the other. -/
def performAll : List Action → SymbolTable → List Answer × SymbolTable
  | [], table => ([], table)
  | a :: rest, table =>
    let (answer, next) := perform a table
    let (answers, after) := performAll rest next
    (answer :: answers, after)

end

/-- A call of `update`, and the table on which it was made. -/
structure Update where
  table : SymbolTable
  name : String
  node : NodeId

mutual

/-- The calls of `update` during a call, those of guarded bodies included. -/
def updates : Action → SymbolTable → List Update
  | .update name node, table => [⟨table, name, node⟩]
  | .guarded name body, table => updatesAll body (table.enter name)
  | .define .., _ | .lookup _, _ | .push _, _ | .pop, _ => []

def updatesAll : List Action → SymbolTable → List Update
  | [], _ => []
  | a :: rest, table => updates a table ++ updatesAll rest (perform a table).2

end

variable {table after : SymbolTable} {name : String} {node : NodeId}

theorem performAll_cons (a : Action) (rest : List Action) (table : SymbolTable) :
    (performAll (a :: rest) table).2 = (performAll rest (perform a table).2).2 := by
  rw [performAll]

theorem perform_guarded (name : String) (body : List Action) (table : SymbolTable) :
    (perform (.guarded name body) table).2 =
      (performAll body (table.enter name)).2.leave table.floor := by
  rw [perform]
  rfl

/-! ## The stack after a call -/

theorem stack_define (h : table.define name node = .ok after) :
    after.stack = table.current.add name node :: table.outer ∧ after.floor = table.floor := by
  unfold define at h
  split at h
  · cases h
  · obtain rfl := Except.ok.inj h
    exact ⟨rfl, rfl⟩

/-- An update changes the first scope that binds the name. -/
theorem stack_update (h : table.update name node = .ok after) :
    table.stack.any (·.contains name) = true ∧
      after.stack = rebindFirst name node table.stack ∧ after.floor = table.floor := by
  unfold update at h
  split at h
  · next hcurrent =>
    obtain rfl := Except.ok.inj h
    simp [stack, rebindFirst, hcurrent]
  · next hcurrent =>
    split at h
    · next houter =>
      obtain rfl := Except.ok.inj h
      rw [List.any_eq_true] at houter
      simp [stack, rebindFirst, hcurrent, houter]
    · cases h

theorem stack_pop {scope : Scope} (h : table.pop = .ok (scope, after)) :
    table.stack = scope :: after.stack ∧ after.floor = table.floor ∧ table.floor < table.depth := by
  obtain ⟨current, outer, floor⟩ := table
  unfold pop at h
  split at h
  · cases h
  · next next rest houter =>
    split at h
    · cases h
    · next hfloor =>
      obtain rfl : outer = next :: rest := houter
      obtain ⟨rfl, rfl⟩ := Prod.mk.inj (Except.ok.inj h)
      exact ⟨rfl, rfl, Nat.lt_of_not_le hfloor⟩

@[simp] theorem stack_push (name : String) : (table.push name).stack = .new name :: table.stack :=
  rfl

@[simp] theorem stack_enter (name : String) :
    (table.enter name).stack = .new name :: table.stack :=
  rfl

@[simp] theorem floor_enter (name : String) : (table.enter name).floor = table.depth + 1 :=
  rfl

@[simp] theorem floor_leave (outerFloor : Nat) : (table.leave outerFloor).floor = outerFloor := by
  unfold leave
  split <;> rfl

/-- Leaving a guarded scope leaves the scopes below its floor. -/
theorem stack_leave {depth : Nat} (hfloor : table.floor = depth + 1) (hdepth : 0 < depth)
    (hopen : table.floor ≤ table.depth) (outerFloor : Nat) :
    (table.leave outerFloor).stack = table.stack.drop (table.depth - depth) := by
  have hlength : (table.stack.drop (table.depth - depth)).length = depth := by
    rw [List.length_drop]
    unfold SymbolTable.depth at hopen ⊢
    omega
  unfold leave
  rw [hfloor, Nat.add_sub_cancel]
  split
  · next heq => exact heq.symm
  · next heq =>
    rw [heq, List.length_nil] at hlength
    omega

end TypedSyntax.SymbolTable
