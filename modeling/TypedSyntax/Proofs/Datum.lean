import TypedSyntax.Datum

/-!
# Recursion over data

One induction and one fold, in which the items of a list and the values of a
map are handled together.
-/

namespace TypedSyntax.Datum

/-- Induction over data: a list and a map inherit a property from their
values. -/
@[elab_as_elim]
theorem induction {motive : Datum → Prop} (bool : ∀ b, motive (.bool b))
    (int : ∀ i, motive (.int i)) (float : ∀ x, motive (.float x))
    (text : ∀ s, motive (.text s))
    (list : ∀ items, (∀ d ∈ items, motive d) → motive (.list items))
    (map : ∀ entries, (∀ e ∈ entries, motive e.2) → motive (.map entries)) (d : Datum) :
    motive d :=
  @Datum.rec motive (fun items => ∀ d ∈ items, motive d)
    (fun entries => ∀ e ∈ entries, motive e.2) (fun e => motive e.2)
    bool int float text list map
    (List.forall_mem_nil _) (fun _ _ hd hds => List.forall_mem_cons.mpr ⟨hd, hds⟩)
    (List.forall_mem_nil _) (fun _ _ he hes => List.forall_mem_cons.mpr ⟨he, hes⟩)
    (fun _ _ hd => hd) d

variable {α : Type} (leaf : Datum → α) (list : List α → α) (map : List (String × α) → α)

mutual

/-- Computes a result from the results of the items or the values. -/
def fold : Datum → α
  | .bool b => leaf (.bool b)
  | .int i => leaf (.int i)
  | .float x => leaf (.float x)
  | .text s => leaf (.text s)
  | .list items => list (foldItems items)
  | .map entries => map (foldEntries entries)

def foldItems : List Datum → List α
  | [] => []
  | item :: items => fold item :: foldItems items

def foldEntries : List (String × Datum) → List (String × α)
  | [] => []
  | (key, value) :: entries => (key, fold value) :: foldEntries entries

end

@[simp]
theorem fold_list (items : List Datum) :
    fold leaf list map (.list items) = list (items.map (fold leaf list map)) := by
  have hitems : foldItems leaf list map items = items.map (fold leaf list map) := by
    induction items with
    | nil => rfl
    | cons item items ih => rw [foldItems, ih, List.map_cons]
  rw [fold, hitems]

@[simp]
theorem fold_map (entries : List (String × Datum)) :
    fold leaf list map (.map entries) =
      map (entries.map fun e => (e.1, fold leaf list map e.2)) := by
  have hentries : foldEntries leaf list map entries =
      entries.map fun e => (e.1, fold leaf list map e.2) := by
    induction entries with
    | nil => rfl
    | cons e entries ih => rw [foldEntries, ih, List.map_cons]
  rw [fold, hentries]

/-- The number of brackets around the innermost value. -/
def depth : Datum → Nat :=
  fold (fun _ => 0) (fun depths => depths.foldr max 0 + 1)
    (fun depths => (depths.map Prod.snd).foldr max 0 + 1)

private theorem le_foldr_max {ns : List Nat} {n : Nat} (h : n ∈ ns) : n ≤ ns.foldr max 0 := by
  induction ns with
  | nil => cases h
  | cons m ns ih =>
      rw [List.foldr_cons]
      cases h with
      | head => exact Nat.le_max_left _ _
      | tail _ h => exact Nat.le_trans (ih h) (Nat.le_max_right _ _)

theorem depth_lt_of_mem_items {items : List Datum} {d : Datum} (h : d ∈ items) :
    d.depth < (Datum.list items).depth := by
  rw [depth, fold_list]
  exact Nat.lt_succ_of_le (le_foldr_max (List.mem_map_of_mem h))

theorem depth_lt_of_mem_entries {entries : List (String × Datum)} {e : String × Datum}
    (h : e ∈ entries) : e.2.depth < (Datum.map entries).depth := by
  rw [depth, fold_map, List.map_map]
  exact Nat.lt_succ_of_le
    (le_foldr_max (List.mem_map_of_mem (f := fun e : String × Datum => e.2.depth) h))

theorem structureEqItems_iff {ds es : List Datum} (hlength : ds.length = es.length)
    (h : ∀ d ∈ ds, ∀ e, structureEq d e = true ↔ d = e) :
    structureEqItems ds es = true ↔ ds = es := by
  induction ds generalizing es with
  | nil =>
      obtain rfl := List.eq_nil_of_length_eq_zero hlength.symm
      simp [structureEqItems]
  | cons d ds ih =>
      obtain ⟨hd, hds⟩ := List.forall_mem_cons.mp h
      cases es with
      | nil => cases hlength
      | cons e es => simp [structureEqItems, hd, ih (Nat.succ.inj hlength) hds]

theorem structureEqEntries_iff {ds es : List (String × Datum)} (hlength : ds.length = es.length)
    (h : ∀ d ∈ ds, ∀ e, structureEq d.2 e = true ↔ d.2 = e) :
    structureEqEntries ds es = true ↔ ds = es := by
  induction ds generalizing es with
  | nil =>
      obtain rfl := List.eq_nil_of_length_eq_zero hlength.symm
      simp [structureEqEntries]
  | cons d ds ih =>
      obtain ⟨hd, hds⟩ := List.forall_mem_cons.mp h
      cases es with
      | nil => cases hlength
      | cons e es =>
          simp [structureEqEntries, hd, ih (Nat.succ.inj hlength) hds, Prod.ext_iff]

/-- Data of equal structure are equal. -/
theorem structureEq_iff {d e : Datum} : d.structureEq e = true ↔ d = e := by
  induction d using induction generalizing e with
  | list items ih =>
      cases e with
      | list others =>
          rw [structureEq, Bool.and_eq_true, beq_iff_eq, list.injEq]
          -- The pairs say nothing about lists of different lengths.
          refine ⟨fun ⟨hlength, hitems⟩ => ?_, fun he => ⟨congrArg List.length he, ?_⟩⟩
          · exact (structureEqItems_iff hlength fun d hd _ => ih d hd).mp hitems
          · exact (structureEqItems_iff (congrArg List.length he) fun d hd _ => ih d hd).mpr he
      | _ => simp [structureEq, numericEq]
  | map entries ih =>
      cases e with
      | map others =>
          rw [structureEq, Bool.and_eq_true, beq_iff_eq, map.injEq]
          refine ⟨fun ⟨hlength, hentries⟩ => ?_, fun he => ⟨congrArg List.length he, ?_⟩⟩
          · exact (structureEqEntries_iff hlength fun d hd _ => ih d hd).mp hentries
          · exact (structureEqEntries_iff (congrArg List.length he) fun d hd _ => ih d hd).mpr he
      | _ => simp [structureEq, numericEq]
  | _ => cases e <;> simp [structureEq, numericEq]

end TypedSyntax.Datum
