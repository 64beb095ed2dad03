import Mathlib.Data.List.Forall2

/-!
# Outcomes of checks

When a sequence of checks succeeds: each of its parts does.
-/

namespace TypedSyntax

variable {E A B : Type}

@[simp] theorem pure_eq_ok_iff {a b : A} : (pure a : Except E A) = .ok b ↔ a = b := by
  change Except.ok a = Except.ok b ↔ a = b
  simp

theorem bind_eq_ok_iff {x : Except E A} {f : A → Except E B} {b : B} :
    (x >>= f) = .ok b ↔ ∃ a, x = .ok a ∧ f a = .ok b := by
  cases x with
  | error e => simp [bind, Except.bind]
  | ok a => simp [bind, Except.bind]

theorem ok_bind {E A B : Type} (a : A) (k : A → Except E B) : (Except.ok a >>= k) = k a := rfl

theorem map_bind {E A B C : Type} (x : Except E A) (k : A → Except E B) (g : B → C) :
    (x >>= k).map g = x >>= fun a => (k a).map g := by
  cases x <;> rfl

/-- A check without a result, followed by another one. -/
theorem check_bind_eq_ok_iff {x : Except E Unit} {f : Unit → Except E B} {b : B} :
    (x >>= f) = .ok b ↔ x = .ok () ∧ f () = .ok b := by
  rw [bind_eq_ok_iff]
  constructor
  · rintro ⟨⟨⟩, hx, hf⟩
    exact ⟨hx, hf⟩
  · intro h
    exact ⟨(), h⟩

theorem map_eq_ok_iff {x : Except E A} {f : A → B} {b : B} :
    x.map f = .ok b ↔ ∃ a, x = .ok a ∧ f a = b := by
  cases x with
  | error e => simp [Except.map]
  | ok a => simp [Except.map]

theorem forM_eq_ok_iff {f : A → Except E Unit} {xs : List A} :
    xs.forM f = .ok () ↔ ∀ x ∈ xs, f x = .ok () := by
  rw [List.forM_eq_forM]
  induction xs with
  | nil => simp
  | cons x xs ih =>
      rw [List.forM_cons, check_bind_eq_ok_iff, ih, List.forall_mem_cons]

/-- If every member of a list has a result, there is a list of results. -/
theorem exists_forall₂ {r : A → B → Prop} {xs : List A} (h : ∀ x ∈ xs, ∃ y, r x y) :
    ∃ ys, List.Forall₂ r xs ys := by
  induction xs with
  | nil => exact ⟨[], .nil⟩
  | cons x xs ih =>
      obtain ⟨⟨y, hy⟩, hxs⟩ := List.forall_mem_cons.mp h
      obtain ⟨ys, hys⟩ := ih hxs
      exact ⟨y :: ys, .cons hy hys⟩

/-- A list of checks succeeds with the list of their results. -/
theorem mapM_eq_ok_iff {f : A → Except E B} {xs : List A} {ys : List B} :
    xs.mapM f = .ok ys ↔ List.Forall₂ (fun x y => f x = .ok y) xs ys := by
  induction xs generalizing ys with
  | nil => simp [List.mapM_nil, eq_comm (a := [])]
  | cons x xs ih =>
      simp only [List.mapM_cons, bind_eq_ok_iff, ih, pure_eq_ok_iff,
        List.forall₂_cons_left_iff]
      constructor
      · rintro ⟨y, hy, rest, hrest, rfl⟩
        exact ⟨y, rest, hy, hrest, rfl⟩
      · rintro ⟨y, rest, hy, hrest, rfl⟩
        exact ⟨y, hy, rest, hrest, rfl⟩

end TypedSyntax
