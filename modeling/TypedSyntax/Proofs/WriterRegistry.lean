import Mathlib.Data.List.Induction
import TypedSyntax.WriterRegistry

/-!
# Runs of a registry

A look-up sees the writers that were registered before the first look-up, then the writer of the
library, then the writers that were registered later. The first look-up of a run therefore decides
where the library's writer stands for all later ones.
-/

namespace TypedSyntax.WriterRegistry

/-- A question about the registered writers. -/
inductive Lookup where
  | language (name : String)
  | fileExtension (name : String)
  | all

inductive Answer where
  | found (writer : Option LanguageWriter)
  | listed (writers : List LanguageWriter)

/-- Asks a registry. -/
def lookUp (registry : WriterRegistry) : Lookup → Answer × WriterRegistry
  | .language name => (.found (registry.forLanguage? name).1, (registry.forLanguage? name).2)
  | .fileExtension name => (.found (registry.forExtension? name).1, (registry.forExtension? name).2)
  | .all => (.listed registry.writers.1, registry.writers.2)

/-- The answer of a look-up among some writers: all of them, or the first that matches. -/
def Lookup.among (writers : List LanguageWriter) : Lookup → Answer
  | .language name => .found (writers.find? (·.language == name))
  | .fileExtension name => .found (writers.find? (·.fileExtension == name))
  | .all => .listed writers

inductive Call where
  | register (writer : LanguageWriter)
  | lookUp (lookup : Lookup)

namespace Call

def isRegister : Call → Bool
  | .register _ => true
  | .lookUp _ => false

def writer? : Call → Option LanguageWriter
  | .register writer => some writer
  | .lookUp _ => none

end Call

def perform (registry : WriterRegistry) : Call → WriterRegistry
  | .register writer => registry.register writer
  | .lookUp lookup => (registry.lookUp lookup).2

/-- The registry after some calls from the start on. -/
def after (calls : List Call) : WriterRegistry :=
  calls.foldl perform empty

/-- The answer to a look-up after some calls. -/
def answer (calls : List Call) (lookup : Lookup) : Answer :=
  ((after calls).lookUp lookup).1

/-- The registered writers in the order of their registration. -/
def registered (calls : List Call) : List LanguageWriter :=
  calls.filterMap Call.writer?

/-- The writers that were registered before the first look-up. -/
def early (calls : List Call) : List LanguageWriter :=
  registered (calls.takeWhile Call.isRegister)

/-- The writers that were registered after the first look-up. -/
def late (calls : List Call) : List LanguageWriter :=
  registered (calls.dropWhile Call.isRegister)

variable {registry : WriterRegistry} {calls : List Call} {lookup : Lookup}

/-! ## The list of writers -/

@[simp] theorem lookUp_fst (registry : WriterRegistry) (lookup : Lookup) :
    (registry.lookUp lookup).1 = lookup.among registry.prepare.list := by
  cases lookup <;> rfl

@[simp] theorem lookUp_snd (registry : WriterRegistry) (lookup : Lookup) :
    (registry.lookUp lookup).2 = registry.prepare := by
  cases lookup <;> rfl

/-- The first look-up divides the registered writers. -/
theorem early_append_late (calls : List Call) : early calls ++ late calls = registered calls := by
  rw [early, late, registered, registered, ← List.filterMap_append,
    List.takeWhile_append_dropWhile, registered]

/-- Calls that only register leave the library's writer out. -/
theorem after_of_registers (h : ∀ c ∈ calls, c.isRegister = true) :
    after calls = ⟨registered calls, false⟩ := by
  induction calls using List.reverseRecOn with
  | nil => rfl
  | append_singleton calls c ih =>
      obtain ⟨hcalls, hc⟩ := List.forall_mem_append.mp h
      cases c with
      | lookUp lookup => cases hc _ List.mem_cons_self
      | register writer =>
          rw [after, List.foldl_append, ← after, ih hcalls]
          simp [perform, register, registered, Call.writer?]

/-- From the first look-up on the library's writer is in the list. -/
theorem foldl_of_ready (h : registry.ready = true) (calls : List Call) :
    calls.foldl perform registry = ⟨registry.list ++ registered calls, true⟩ := by
  induction calls generalizing registry with
  | nil =>
      obtain ⟨list, ready⟩ := registry
      obtain rfl : ready = true := h
      simp [registered]
  | cons c calls ih =>
      cases c with
      | register writer =>
          rw [List.foldl_cons, perform, ih (show (registry.register writer).ready = true from h)]
          simp [register, registered, Call.writer?]
      | lookUp lookup =>
          have hprepare : registry.prepare = registry := if_pos h
          rw [List.foldl_cons, perform, lookUp_snd, hprepare, ih h]
          rfl

/-- What a look-up after some calls sees. -/
theorem list_prepare_after (calls : List Call) :
    (after calls).prepare.list = early calls ++ .python :: late calls := by
  have hearly : after (calls.takeWhile Call.isRegister) = ⟨early calls, false⟩ :=
    after_of_registers (List.all_eq_true.mp List.all_takeWhile)
  have hsplit : after calls =
      (calls.dropWhile Call.isRegister).foldl perform ⟨early calls, false⟩ := by
    rw [← hearly, after, after, ← List.foldl_append, List.takeWhile_append_dropWhile]
  rw [hsplit]
  cases hlate : calls.dropWhile Call.isRegister with
  | nil => simp [prepare, late, hlate, registered]
  | cons c later =>
      cases c with
      | register writer =>
          have hhead := List.head?_dropWhile_not Call.isRegister calls
          simp [hlate, Call.isRegister] at hhead
      | lookUp lookup =>
          have hregistered : late calls = registered later := by
            rw [late, hlate]
            rfl
          rw [List.foldl_cons, perform, lookUp_snd, foldl_of_ready (by rfl), hregistered]
          simp [prepare]

/-- A look-up is answered from the list, with the library's writer where the first
look-up put it. -/
theorem answer_eq_among (calls : List Call) (lookup : Lookup) :
    answer calls lookup = lookup.among (early calls ++ .python :: late calls) := by
  rw [answer, lookUp_fst, list_prepare_after]

/-- Without earlier look-ups the library's writer stands last. -/
theorem answer_filter_isRegister (calls : List Call) (lookup : Lookup) :
    answer (calls.filter Call.isRegister) lookup =
      lookup.among (registered calls ++ [.python]) := by
  have hregistered : registered (calls.filter Call.isRegister) = registered calls := by
    rw [registered, List.filterMap_filter, registered]
    congr 1
    funext c
    cases c <;> rfl
  have hready : after (calls.filter Call.isRegister) = ⟨registered calls, false⟩ := by
    rw [after_of_registers fun c hc => (List.mem_filter.mp hc).2, hregistered]
  rw [answer, lookUp_fst, hready]
  rfl

/-! ## Where the library's writer stands -/

/-- The look-up of all writers tells lists apart. -/
theorem forall_among_eq_iff {xs ys : List LanguageWriter} :
    (∀ lookup : Lookup, lookup.among xs = lookup.among ys) ↔ xs = ys := by
  constructor
  · intro h
    exact Answer.listed.inj (h .all)
  · rintro rfl lookup
    rfl

theorem cons_eq_concat_iff {α : Type} {a : α} {xs : List α} :
    a :: xs = xs ++ [a] ↔ ∀ x ∈ xs, x = a := by
  induction xs with
  | nil => simp
  | cons x xs ih =>
      rw [List.cons_append, List.cons.injEq, List.forall_mem_cons]
      constructor
      · rintro ⟨rfl, h⟩
        exact ⟨rfl, ih.mp h⟩
      · rintro ⟨rfl, h⟩
        exact ⟨rfl, ih.mpr h⟩

/-- Whether a look-up may give a writer. -/
def Lookup.admits (writer : LanguageWriter) : Lookup → Bool
  | .language name => writer.language == name
  | .fileExtension name => writer.fileExtension == name
  | .all => true

/-- A writer that a look-up does not give may stand anywhere. -/
theorem Lookup.among_insert {writer : LanguageWriter} (h : lookup.admits writer = false)
    (xs ys : List LanguageWriter) :
    lookup.among (xs ++ writer :: ys) = lookup.among (xs ++ ys) := by
  have hfind : ∀ p : LanguageWriter → Bool, p writer = false →
      (xs ++ writer :: ys).find? p = (xs ++ ys).find? p := by
    intro p hp
    rw [List.find?_append, List.find?_append, List.find?_cons_of_neg (by simp [hp])]
  cases lookup with
  | language name => exact congrArg Answer.found (hfind _ h)
  | fileExtension name => exact congrArg Answer.found (hfind _ h)
  | all => cases h

/-- Look-ups see the library's writer between the writers that were registered before the first
look-up and those that were registered after it. So it is the first one for all look-ups exactly
when nothing else was registered before the first look-up, and all look-ups answer as without
earlier look-ups exactly when nothing else was registered after it. A look-up that does not
ask for the library's writer has the first of the registered writers as its answer, whatever was
looked up before. -/
theorem answer_calls (calls : List Call) :
    (∀ lookup, answer calls lookup = lookup.among (early calls ++ .python :: late calls)) ∧
    ((∀ lookup : Lookup, answer calls lookup = lookup.among (.python :: registered calls)) ↔
      ∀ writer ∈ early calls, writer = .python) ∧
    ((∀ lookup, answer calls lookup = answer (calls.filter Call.isRegister) lookup) ↔
      ∀ writer ∈ late calls, writer = .python) ∧
    ∀ lookup : Lookup, lookup.admits .python = false →
      answer calls lookup = lookup.among (registered calls) ∧
        answer calls lookup = answer (calls.filter Call.isRegister) lookup := by
  simp only [answer_filter_isRegister]
  simp only [answer_eq_among, forall_among_eq_iff]
  refine ⟨fun _ => trivial, ?first, ?unseen, ?other⟩
  case first =>
    rw [← early_append_late, List.append_cons, ← List.cons_append, List.append_cancel_right_eq,
      eq_comm, cons_eq_concat_iff]
  case unseen =>
    rw [← early_append_late, List.append_assoc, List.append_cancel_left_eq, cons_eq_concat_iff]
  case other =>
    intro lookup h
    have hlast := Lookup.among_insert h (registered calls) []
    rw [List.append_nil] at hlast
    rw [Lookup.among_insert h, early_append_late, hlast]
    exact ⟨rfl, rfl⟩

/-- Another writer for Python. -/
def rival : LanguageWriter :=
  .ofRules "python" "txt" .names

/-- The look-ups for another language are pure. -/
theorem answer_calls_names :
    let names : LanguageWriter := .ofRules "names" "txt" .names
    let calls : List Call := [.register rival, .lookUp (.language "python"), .register names]
    (Lookup.language "names").admits .python = false ∧
      answer calls (.language "names") = .found (some names) ∧
      answer [.register rival, .register names] (.language "names") = .found (some names) := by
  intro names calls
  have hadmits : (Lookup.language "names").admits .python = false := by decide
  obtain ⟨-, -, -, hother⟩ := answer_calls calls
  obtain ⟨hfirst, hsame⟩ := hother (.language "names") hadmits
  exact ⟨hadmits, hfirst, hsame.symm.trans hfirst⟩

/-- A look-up before the registration of a rival keeps the library's writer in the first place.
Without it the rival is found, although the library's writer should be the first one in this run
too. -/
theorem answer_rival :
    let calls : List Call := [.lookUp .all, .register rival]
    answer calls (.language "python") = .found (some .python) ∧
      answer (calls.filter Call.isRegister) (.language "python") = .found (some rival) ∧
      (Lookup.language "python").among (.python :: registered (calls.filter Call.isRegister)) =
        .found (some .python) ∧
      rival ≠ .python := by
  refine ⟨rfl, rfl, rfl, ?_⟩
  intro h
  have hextension := congrArg LanguageWriter.fileExtension h
  revert hextension
  decide

end TypedSyntax.WriterRegistry
