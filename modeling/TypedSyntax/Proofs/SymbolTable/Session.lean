import TypedSyntax.Proofs.SymbolTable.Run

/-!
# Sessions

A session is a table with its live guards. A guard is entered and left by calls
of their own, so that the states inside a guarded body are states of a session
too. Beside the table stands how each of the open scopes was opened, which the
table itself does not record: for all its guards it keeps one number. The
invariant `Held` says what that number is.
-/

namespace TypedSyntax.SymbolTable

/-- A call on a table or on its guards. -/
inductive Event where
  | define (name : String) (node : NodeId)
  | update (name : String) (node : NodeId)
  | lookup (name : String)
  | push (name : String)
  | pop
  | enter (name : String)
  | leave

inductive Opener where
  | root
  | push
  | guard
deriving DecidableEq

/-- An open scope, by its name and how it was opened. -/
structure Opened where
  name : String
  opener : Opener

/-- A live guard: the floor that it restores, and the depth at which it pushed
its scope. -/
structure Guard where
  outerFloor : Nat
  depth : Nat

/-- A table, its live guards and its open scopes, both the innermost first. -/
structure Session where
  table : SymbolTable
  guards : List Guard
  opened : List Opened

namespace Session

def new : Session := ⟨.new, [], [⟨rootName, .root⟩]⟩

/-- How the innermost open scope was opened. -/
def innermost? (s : Session) : Option Opener :=
  s.opened.head?.map (·.opener)

/-- The open scopes once the innermost guarded one is closed. -/
def outsideGuard (opened : List Opened) : List Opened :=
  (opened.dropWhile (·.opener ≠ .guard)).tail

/-- Makes a call on the table that opens and closes no scope. -/
def call (s : Session) (a : Action) : Answer × Session :=
  let (answer, after) := perform a s.table
  (answer, { s with table := after })

/-- Makes a call. Without a live guard there is none to leave. -/
def step (s : Session) : Event → Answer × Session
  | .define name node => s.call (.define name node)
  | .update name node => s.call (.update name node)
  | .lookup name => s.call (.lookup name)
  | .push name =>
    (.done, { s with table := s.table.push name, opened := ⟨name, .push⟩ :: s.opened })
  | .pop =>
    match s.table.pop with
    | .ok (scope, after) => (.popped scope, { s with table := after, opened := s.opened.tail })
    | .error e => (.refused e, s)
  | .enter name =>
    let inner := s.table.enter name
    (.done, ⟨inner, ⟨s.table.floor, inner.depth⟩ :: s.guards, ⟨name, .guard⟩ :: s.opened⟩)
  | .leave =>
    match s.guards with
    | [] => (.done, s)
    | guard :: rest => (.done, ⟨s.table.leave guard.outerFloor, rest, outsideGuard s.opened⟩)

/-- Makes some calls one after the other. -/
def performs (s : Session) (events : List Event) : Session :=
  events.foldl (fun s e => (s.step e).2) s

end Session

/-- The session after some calls on a new table. -/
def session (events : List Event) : Session :=
  Session.new.performs events

/-! ## Guarded bodies as calls of a session -/

mutual

/-- The calls that make up a call: a guarded body stands between the calls that
enter and leave its guard. -/
def Action.events : Action → List Event
  | .define name node => [.define name node]
  | .update name node => [.update name node]
  | .lookup name => [.lookup name]
  | .push name => [.push name]
  | .pop => [.pop]
  | .guarded name body => .enter name :: (Action.eventsAll body ++ [.leave])

def Action.eventsAll : List Action → List Event
  | [] => []
  | a :: rest => a.events ++ Action.eventsAll rest

end

theorem Session.step_leave {s : Session} {guard : Guard} {rest : List Guard}
    (h : s.guards = guard :: rest) :
    s.step .leave =
      (.done, ⟨s.table.leave guard.outerFloor, rest, outsideGuard s.opened⟩) := by
  rw [step, h]

/-- Events are performed one after the other. -/
theorem Session.performs_append (s : Session) (first second : List Event) :
    s.performs (first ++ second) = (s.performs first).performs second := by
  simp [performs]

mutual

/-- A call and the calls that make it up leave the same table, and the guards
that were live before. -/
theorem performs_events (a : Action) (s : Session) :
    (s.performs a.events).table = (perform a s.table).2 ∧
      (s.performs a.events).guards = s.guards := by
  cases a with
  | define name node => exact ⟨rfl, rfl⟩
  | update name node => exact ⟨rfl, rfl⟩
  | lookup name => exact ⟨rfl, rfl⟩
  | push name => exact ⟨rfl, rfl⟩
  | pop =>
      rw [Action.events, Session.performs, List.foldl_cons, List.foldl_nil, Session.step, perform]
      cases s.table.pop <;> exact ⟨rfl, rfl⟩
  | guarded name body =>
      obtain ⟨htable, hguards⟩ := performs_eventsAll body (s.step (.enter name)).2
      have hevents : s.performs (Action.guarded name body).events =
          (((s.step (.enter name)).2.performs (Action.eventsAll body)).step .leave).2 := by
        rw [Action.events, ← List.singleton_append, Session.performs_append,
          Session.performs_append]
        rfl
      have hlive : ((s.step (.enter name)).2.performs (Action.eventsAll body)).guards =
          ⟨s.table.floor, (s.table.enter name).depth⟩ :: s.guards := hguards
      rw [hevents, Session.step_leave hlive, perform_guarded]
      exact ⟨congrArg (·.leave s.table.floor) htable, rfl⟩

/-- The events of a body do what the body does, and close all guards that they open. -/
theorem performs_eventsAll (body : List Action) (s : Session) :
    (s.performs (Action.eventsAll body)).table = (performAll body s.table).2 ∧
      (s.performs (Action.eventsAll body)).guards = s.guards := by
  cases body with
  | nil => exact ⟨rfl, rfl⟩
  | cons a rest =>
      obtain ⟨htable, hguards⟩ := performs_events a s
      obtain ⟨htable', hguards'⟩ := performs_eventsAll rest (s.performs a.events)
      rw [Action.eventsAll, Session.performs_append, performAll_cons, ← htable]
      exact ⟨htable', hguards'.trans hguards⟩

end

/-! ## The scopes and the guards that hold them -/

/-- Some live guards hold the open scopes down to a floor: each guard restores
the floor from before it was entered, and keeps its own until it is left. -/
inductive Held : List Guard → List Opened → Nat → Prop
  | root : Held [] [⟨rootName, .root⟩] 1
  | push {guards opened floor} (name : String) :
      Held guards opened floor → Held guards (⟨name, .push⟩ :: opened) floor
  | guard {guards opened floor} (name : String) :
      Held guards opened floor →
      Held (⟨floor, opened.length + 1⟩ :: guards) (⟨name, .guard⟩ :: opened) (opened.length + 1)

variable {guards : List Guard} {opened : List Opened} {floor : Nat}

theorem Held.floor_pos (h : Held guards opened floor) : 1 ≤ floor := by
  induction h with
  | root => exact Nat.le_refl 1
  | push _ _ ih => exact ih
  | guard _ _ _ => exact Nat.succ_pos _

/-- The floor is not above the scopes that are open. -/
theorem Held.floor_le_length (h : Held guards opened floor) : floor ≤ opened.length := by
  induction h with
  | root => exact Nat.le_refl 1
  | push _ _ ih => exact Nat.le_succ_of_le ih
  | guard _ _ _ => exact Nat.le_refl _

/-- The floor is where the innermost live guard pushed its scope. -/
theorem Held.floor_eq (h : Held guards opened floor) :
    floor = (guards.head?.map (·.depth)).getD 1 := by
  induction h with
  | root => rfl
  | push _ _ ih => exact ih
  | guard _ _ _ => rfl

/-- The outermost scope is the root, and no other one is. -/
theorem Held.exists_root (h : Held guards opened floor) :
    ∃ inner, opened = inner ++ [⟨rootName, .root⟩] ∧ ∀ o ∈ inner, o.opener ≠ .root := by
  induction h with
  | root => exact ⟨[], rfl, List.forall_mem_nil _⟩
  | push name _ ih =>
      obtain ⟨inner, rfl, hinner⟩ := ih
      exact ⟨⟨name, .push⟩ :: inner, rfl, List.forall_mem_cons.mpr ⟨nofun, hinner⟩⟩
  | guard name _ ih =>
      obtain ⟨inner, rfl, hinner⟩ := ih
      exact ⟨⟨name, .guard⟩ :: inner, rfl, List.forall_mem_cons.mpr ⟨nofun, hinner⟩⟩

/-- The innermost scope was pushed if it lies above the floor. -/
theorem Held.head?_eq_push_iff (h : Held guards opened floor) :
    opened.head?.map (·.opener) = some .push ↔ 1 < opened.length ∧ floor < opened.length := by
  cases h with
  | root => simp
  | push name hbelow =>
      have hpos := hbelow.floor_pos
      have hle := hbelow.floor_le_length
      simp only [List.head?_cons, Option.map_some, true_iff, List.length_cons]
      omega
  | guard name hbelow => simp

/-- A scope above the floor may be closed. -/
theorem Held.tail (h : Held guards opened floor) (hfloor : floor < opened.length) :
    Held guards opened.tail floor := by
  cases h with
  | root => exact absurd hfloor (Nat.lt_irrefl 1)
  | push name hbelow => exact hbelow
  | guard name hbelow => exact absurd hfloor (Nat.lt_irrefl _)

/-- Leaving a guard closes its scope and those above it, and the scopes below
are held down to the floor that it restores. -/
theorem Held.outsideGuard {guard : Guard} (h : Held (guard :: guards) opened floor) :
    Held guards (Session.outsideGuard opened) guard.outerFloor ∧
      ∃ inner, opened = inner ++ Session.outsideGuard opened ∧
        floor = (Session.outsideGuard opened).length + 1 := by
  generalize hall : guard :: guards = all at h
  induction h with
  | root => cases hall
  | push name _ ih =>
      obtain ⟨hheld, inner, hinner, hfloor⟩ := ih hall
      exact ⟨hheld, ⟨name, .push⟩ :: inner, congrArg (_ :: ·) hinner, hfloor⟩
  | guard name hbelow _ =>
      obtain ⟨rfl, rfl⟩ := List.cons.inj hall
      exact ⟨hbelow, [⟨name, .guard⟩], rfl, rfl⟩

/-- An update changes no scope's name. -/
theorem map_name_rebindFirst (name : String) (node : NodeId) (stack : List Scope) :
    (rebindFirst name node stack).map (·.name) = stack.map (·.name) := by
  induction stack with
  | nil => rfl
  | cons scope rest ih =>
      by_cases hscope : scope.contains name = true
      · rw [rebindFirst, if_pos hscope]
        rfl
      · rw [rebindFirst, if_neg hscope, List.map_cons, ih, List.map_cons]

namespace Session

variable {s : Session}

/-- The scopes of the table are those that are open, and its floor is the one
its guards hold. -/
structure Aligned (s : Session) : Prop where
  held : Held s.guards s.opened s.table.floor
  names_eq : s.table.stack.map (·.name) = s.opened.map (·.name)

theorem Aligned.depth_eq (h : s.Aligned) : s.table.depth = s.opened.length := by
  simpa [depth] using congrArg List.length h.names_eq

theorem aligned_new : Aligned new := ⟨Held.root, rfl⟩

/-- A call that keeps the names of the scopes and the floor. -/
theorem Aligned.of_table {after : SymbolTable} (h : s.Aligned)
    (hnames : after.stack.map (·.name) = s.table.stack.map (·.name))
    (hfloor : after.floor = s.table.floor) : Aligned { s with table := after } :=
  ⟨by rw [hfloor]; exact h.held, hnames.trans h.names_eq⟩

/-- A definition opens and closes nothing. -/
theorem Aligned.define (h : s.Aligned) (name : String) (node : NodeId) :
    (s.call (.define name node)).2.Aligned := by
  rw [call, perform]
  cases hdefine : s.table.define name node with
  | error e => exact h
  | ok after =>
      obtain ⟨hstack, hfloor⟩ := stack_define hdefine
      exact h.of_table (by rw [hstack]; rfl) hfloor

theorem Aligned.update (h : s.Aligned) (name : String) (node : NodeId) :
    (s.call (.update name node)).2.Aligned := by
  rw [call, perform]
  cases hupdate : s.table.update name node with
  | error e => exact h
  | ok after =>
      obtain ⟨-, hstack, hfloor⟩ := stack_update hupdate
      exact h.of_table (by rw [hstack, map_name_rebindFirst]) hfloor

theorem Aligned.lookup (h : s.Aligned) (name : String) : (s.call (.lookup name)).2.Aligned := by
  rw [call, perform]
  cases s.table.lookup name <;> exact h

/-- A scope that is pushed is above the floor. -/
theorem Aligned.push (h : s.Aligned) (name : String) : (s.step (.push name)).2.Aligned :=
  ⟨h.held.push name, congrArg (name :: ·) h.names_eq⟩

/-- A guard raises the floor to its own scope. -/
theorem Aligned.enter (h : s.Aligned) (name : String) : (s.step (.enter name)).2.Aligned := by
  have hheld := h.held.guard name
  rw [← h.depth_eq] at hheld
  exact ⟨hheld, congrArg (name :: ·) h.names_eq⟩

/-- A scope that is popped was not below a guard. -/
theorem Aligned.pop (h : s.Aligned) : (s.step .pop).2.Aligned := by
  rw [step]
  cases hpop : s.table.pop with
  | error e => exact h
  | ok popped =>
      obtain ⟨scope, after⟩ := popped
      obtain ⟨hstack, hfloor, hlt⟩ := stack_pop hpop
      have hnames : after.stack.map (·.name) = s.opened.tail.map (·.name) := by
        rw [List.map_tail, ← h.names_eq, hstack]
        rfl
      refine ⟨?_, hnames⟩
      rw [hfloor]
      exact h.held.tail (h.depth_eq ▸ hlt)

/-- A guard that ends closes its scope and all above it. -/
theorem Aligned.leave (h : s.Aligned) : (s.step .leave).2.Aligned := by
  rw [step]
  split
  · exact h
  · next guard rest hguards =>
    obtain ⟨hbelow, inner, hinner, hfloor⟩ := (hguards ▸ h.held).outsideGuard
    have hpos : 0 < (outsideGuard s.opened).length :=
      Nat.lt_of_lt_of_le hbelow.floor_pos hbelow.floor_le_length
    have hopen : s.table.floor ≤ s.table.depth := h.depth_eq ▸ h.held.floor_le_length
    -- The guard's scope and all above it go, down to what was open before it.
    have hstack := stack_leave hfloor hpos hopen guard.outerFloor
    have hdrop : s.opened.drop (s.opened.length - (outsideGuard s.opened).length) =
        outsideGuard s.opened := by
      generalize outsideGuard s.opened = below at hinner ⊢
      simp [hinner]
    refine ⟨?_, ?_⟩
    · rw [floor_leave]
      exact hbelow
    · rw [hstack, List.map_drop, h.names_eq, h.depth_eq, ← List.map_drop, hdrop]

/-- Every event keeps the table in step with the open scopes. -/
theorem Aligned.step (h : s.Aligned) (e : Event) : (s.step e).2.Aligned := by
  cases e with
  | define name node => exact h.define name node
  | update name node => exact h.update name node
  | lookup name => exact h.lookup name
  | push name => exact h.push name
  | pop => exact h.pop
  | enter name => exact h.enter name
  | leave => exact h.leave

/-- Every sequence of events does. -/
theorem Aligned.performs (events : List Event) (h : s.Aligned) : (s.performs events).Aligned := by
  induction events generalizing s with
  | nil => exact h
  | cons e rest ih => exact ih (h.step e)

/-- A refused call leaves the session as it is. -/
theorem step_refused {e : Event} {error : ScopeError} (h : (s.step e).1 = .refused error) :
    (s.step e).2 = s := by
  cases e with
  | define name node =>
      rw [Session.step, call, perform] at h ⊢
      cases hdefine : s.table.define name node with
      | error e => rfl
      | ok after => simp [hdefine] at h
  | update name node =>
      rw [Session.step, call, perform] at h ⊢
      cases hupdate : s.table.update name node with
      | error e => rfl
      | ok after => simp [hupdate] at h
  | lookup name =>
      rw [Session.step, call, perform]
      cases s.table.lookup name <;> rfl
  | push name => cases h
  | pop =>
      rw [Session.step] at h ⊢
      cases hpop : s.table.pop with
      | error e => rfl
      | ok popped => simp [hpop] at h
  | enter name => cases h
  | leave =>
      rw [Session.step] at h
      split at h <;> cases h

end Session

/-! ## Closing the innermost scope -/

/-- A scope is popped unless it is the root or below a guard. -/
theorem pop_cases (table : SymbolTable) :
    (table.depth = 1 ∧ table.pop = .error .rootScope) ∨
      (1 < table.depth ∧ table.depth ≤ table.floor ∧
        table.pop = .error (.guardedScope table.current.name)) ∨
      (1 < table.depth ∧ table.floor < table.depth ∧
        ∃ after, table.pop = .ok (table.current, after)) := by
  obtain ⟨current, outer, floor⟩ := table
  cases outer with
  | nil => exact .inl ⟨rfl, rfl⟩
  | cons next rest =>
      have hdepth : 1 < (⟨current, next :: rest, floor⟩ : SymbolTable).depth := by
        simp [depth, stack]
      by_cases hfloor : (⟨current, next :: rest, floor⟩ : SymbolTable).depth ≤ floor
      · exact .inr (.inl ⟨hdepth, hfloor, if_pos hfloor⟩)
      · exact .inr (.inr ⟨hdepth, Nat.lt_of_not_le hfloor, _, if_neg hfloor⟩)

/-- When the innermost scope can be closed: it must have been pushed. -/
structure PopRule (s : Session) : Prop where
  ok_iff : (∃ popped, s.table.pop = .ok popped) ↔ s.innermost? = some .push
  ok : ∀ scope after, s.table.pop = .ok (scope, after) →
    s.table.stack = scope :: after.stack ∧ after.floor = s.table.floor
  root_iff : s.table.pop = .error .rootScope ↔ s.table.depth = 1
  guarded_iff : ∀ name, s.table.pop = .error (.guardedScope name) ↔
    s.innermost? ≠ some .push ∧ s.table.depth ≠ 1 ∧ name = s.table.current.name

/-- In terms of the open scopes, a pop fails exactly at the root and at a guard. -/
theorem Session.Aligned.popRule {s : Session} (h : s.Aligned) : PopRule s where
  ok_iff := by
    rw [innermost?, h.held.head?_eq_push_iff, ← h.depth_eq]
    rcases pop_cases s.table with ⟨hdepth, hpop⟩ | ⟨-, hle, hpop⟩ | ⟨hdepth, hlt, after, hpop⟩
    · simp [hpop, hdepth]
    · simp [hpop, hle]
    · simp [hpop, hdepth, hlt]
  ok scope after hpop := by
    obtain ⟨hstack, hfloor, -⟩ := stack_pop hpop
    exact ⟨hstack, hfloor⟩
  root_iff := by
    rcases pop_cases s.table with ⟨hdepth, hpop⟩ | ⟨hdepth, -, hpop⟩ | ⟨hdepth, -, after, hpop⟩
    · simp [hpop, hdepth]
    · simp [hpop, Nat.ne_of_gt hdepth]
    · simp [hpop, Nat.ne_of_gt hdepth]
  guarded_iff name := by
    rw [innermost?, Ne, h.held.head?_eq_push_iff, ← h.depth_eq]
    rcases pop_cases s.table with ⟨hdepth, hpop⟩ | ⟨hdepth, hle, hpop⟩ | ⟨hdepth, hlt, after, hpop⟩
    · simp [hpop, hdepth]
    · simp [hpop, Nat.ne_of_gt hdepth, hle, eq_comm (a := name)]
    · simp [hpop, hdepth, hlt]

/-! ## Every session -/

/-- What a session's table keeps of its history: the open scopes down to the
root, and where the innermost live guard pushed its scope. -/
structure Kept (s : Session) : Prop where
  root_eq : s.table.scopes.head?.map (·.name) = some rootName
  names_eq : s.table.stack.map (·.name) = s.opened.map (·.name)
  exists_root : ∃ inner, s.opened = inner ++ [⟨rootName, .root⟩] ∧ ∀ o ∈ inner, o.opener ≠ .root
  floor_pos : 1 ≤ s.table.floor
  floor_le_depth : s.table.floor ≤ s.table.depth
  floor_eq : s.table.floor = (s.guards.head?.map (·.depth)).getD 1

/-- After any calls on a table and its guards, the stack reaches down to the
root scope, the floor lies where the innermost live guard pushed its scope, the
innermost scope can be closed iff it was pushed, and a refused call changes
nothing. -/
theorem session_kept (events : List Event) :
    Kept (session events) ∧ PopRule (session events) ∧
      ∀ e error, ((session events).step e).1 = .refused error →
        ((session events).step e).2 = session events := by
  have h : (session events).Aligned := Session.aligned_new.performs events
  have hroot : (session events).table.scopes.head?.map (·.name) = some rootName := by
    obtain ⟨inner, hinner, -⟩ := h.held.exists_root
    rw [scopes, List.head?_reverse, ← List.getLast?_map, h.names_eq, hinner]
    simp
  refine ⟨?_, h.popRule, fun e error hrefused => Session.step_refused hrefused⟩
  exact {
    root_eq := hroot
    names_eq := h.names_eq
    exists_root := h.held.exists_root
    floor_pos := h.held.floor_pos
    floor_le_depth := h.depth_eq ▸ h.held.floor_le_length
    floor_eq := h.held.floor_eq }

end TypedSyntax.SymbolTable
