import TypedSyntax.Proofs.Export.Subtree
import TypedSyntax.Proofs.Json.Codec

/-!
# Equality of exported data

Comparing the structure of two data comes down to their being the same, doubles
bit by bit. It is an equivalence, of nodes as well as of data. Comparing doubles
as numbers is not, but makes no difference where no double is a NaN or a zero.
-/

namespace TypedSyntax

/-- A number that is not zero has one representation. -/
theorem Double.numericEq_iff {x y : Double} (hnan : x.isNaN = false) (hzero : x.isZero = false) :
    x.numericEq y = true ↔ x = y := by
  simp only [numericEq, hnan, hzero, Bool.not_false, Bool.true_and, Bool.false_and, Bool.or_false,
    Bool.and_eq_true, Bool.not_eq_true', beq_iff_eq, and_iff_right_iff_imp]
  rintro rfl
  exact hnan

namespace Datum

/-- No double in the datum is a NaN or a zero. -/
def Ordinary (d : Datum) : Prop :=
  ∀ x, .float x ∈ d.numbers → x.isNaN = false ∧ x.isZero = false

theorem Ordinary.item {items : List Datum} (h : (Datum.list items).Ordinary) {d : Datum}
    (hd : d ∈ items) : d.Ordinary :=
  fun x hx => h x (mem_numbers_list hd hx)

theorem Ordinary.entry {entries : List (String × Datum)} (h : (Datum.map entries).Ordinary)
    {e : String × Datum} (he : e ∈ entries) : e.2.Ordinary :=
  fun x hx => h x (mem_numbers_map he hx)

theorem numericEqItems_iff {ds es : List Datum}
    (h : ∀ d ∈ ds, ∀ e, numericEq d e = true ↔ d = e) :
    numericEqItems ds es = true ↔ ds = es := by
  induction ds generalizing es with
  | nil => cases es <;> simp [numericEqItems]
  | cons d ds ih =>
      obtain ⟨hd, hds⟩ := List.forall_mem_cons.mp h
      cases es with
      | nil => simp [numericEqItems]
      | cons e es => simp [numericEqItems, hd, ih hds]

theorem numericEqEntries_iff {ds es : List (String × Datum)}
    (h : ∀ d ∈ ds, ∀ e, numericEq d.2 e = true ↔ d.2 = e) :
    numericEqEntries ds es = true ↔ ds = es := by
  induction ds generalizing es with
  | nil => cases es <;> simp [numericEqEntries]
  | cons d ds ih =>
      obtain ⟨hd, hds⟩ := List.forall_mem_cons.mp h
      cases es with
      | nil => simp [numericEqEntries]
      | cons e es => simp [numericEqEntries, hd, ih hds, Prod.ext_iff]

/-- Ordinary data that are equal as numbers are equal. -/
theorem Ordinary.numericEq_iff {d e : Datum} (h : d.Ordinary) :
    d.numericEq e = true ↔ d = e := by
  induction d using Datum.induction generalizing e with
  | float x =>
      obtain ⟨hnan, hzero⟩ := h x List.mem_cons_self
      cases e with
      | float y => rw [numericEq, Double.numericEq_iff hnan hzero, float.injEq]
      | _ => simp [numericEq]
  | list items ih =>
      cases e with
      | list others =>
          rw [numericEq, numericEqItems_iff fun d hd _ => ih d hd (h.item hd), list.injEq]
      | _ => simp [numericEq]
  | map entries ih =>
      cases e with
      | map others =>
          rw [numericEq, numericEqEntries_iff fun d hd _ => ih d hd (h.entry hd), map.injEq]
      | _ => simp [numericEq]
  | _ => cases e <;> simp [numericEq]

theorem equivalence_structureEq : Equivalence fun a b : Datum => a.structureEq b = true := by
  simp only [structureEq_iff]
  exact eq_equivalence

end Datum

/-! ## Nodes -/

/-- A node of a tree that some run leaves. -/
structure Place where
  actions : List Workspace.Action
  index : Nat
  node : NodeId
  has : ((Workspace.run actions).tree index).Has node

namespace Place

/-- The tree in which the node stands. -/
def tree (place : Place) : Tree :=
  (Workspace.run place.actions).tree place.index

/-- Whether the subtrees at two places have the same structure. -/
def structureEq (p q : Place) : Except NodeError Bool :=
  p.tree.structureEq p.node q.tree q.node

theorem exists_toDatum (p : Place) : ∃ d, p.tree.toDatum p.node .simplified = .ok d := by
  obtain ⟨g, hg⟩ := Tree.cuts_run p.actions p.index
  exact ⟨_, hg.toDatum_eq p.has .simplified⟩

/-- Places are compared by what they are exported to. -/
theorem exists_structureEq_eq :
    ∃ d : Place → Datum, ∀ p q : Place, p.structureEq q = .ok ((d p).structureEq (d q)) := by
  choose d hd using exists_toDatum
  refine ⟨d, fun p q => ?_⟩
  rw [structureEq, Tree.structureEq, hd, hd]
  rfl

theorem equivalence_structureEq : Equivalence fun p q : Place => p.structureEq q = .ok true := by
  obtain ⟨d, hd⟩ := exists_structureEq_eq
  simp only [hd, Except.ok.injEq]
  exact Datum.equivalence_structureEq.comap d

end Place

/-- Data have the same structure exactly when they are the same, which is an
equivalence, as is the comparison of nodes of any trees of any runs. For ordinary
data it makes no difference to compare doubles as numbers. -/
theorem structureEq_equivalence :
    (∀ a b : Datum, a.structureEq b = true ↔ a = b) ∧
      (Equivalence fun a b : Datum => a.structureEq b = true) ∧
      (Equivalence fun p q : Place => p.structureEq q = .ok true) ∧
      (∀ p q : Place, ∃ b, p.structureEq q = .ok b) ∧
      ∀ a b : Datum, a.Ordinary → a.structureEq b = a.numericEq b := by
  refine ⟨fun _ _ => Datum.structureEq_iff, Datum.equivalence_structureEq,
    Place.equivalence_structureEq, fun p q => ?_, fun a b ha => ?_⟩
  · obtain ⟨d, hd⟩ := Place.exists_structureEq_eq
    exact ⟨_, hd p q⟩
  · rw [Bool.eq_iff_iff, Datum.structureEq_iff, ha.numericEq_iff]

/-- The doubles are 1.5 and -2. -/
def nestedDoubles : Datum :=
  .list [.float ⟨0x3FF8000000000000⟩, .map [("k", .float ⟨0xC000000000000000⟩)]]

theorem ordinary_nestedDoubles : nestedDoubles.Ordinary := by
  have hnumbers : nestedDoubles.numbers =
      [.float ⟨0x3FF8000000000000⟩, .float ⟨0xC000000000000000⟩] := rfl
  intro x hx
  rw [hnumbers] at hx
  simp only [List.mem_cons, Json.Number.float.injEq, List.not_mem_nil, or_false] at hx
  rcases hx with rfl | rfl <;> decide

/-- A NaN in a list equals itself in structure only, and zeros of both signs are
equal as numbers only. -/
theorem structureEq_nestedDoubles :
    let nan : Datum := .list [.float ⟨0x7FF8000000000000⟩]
    let zero : Datum := .list [.float ⟨0⟩]
    let negativeZero : Datum := .list [.float ⟨0x8000000000000000⟩]
    nestedDoubles.Ordinary ∧ nestedDoubles.structureEq nestedDoubles = true ∧
      nestedDoubles.structureEq nestedDoubles = nestedDoubles.numericEq nestedDoubles ∧
      nan.structureEq nan = true ∧ nan.numericEq nan = false ∧
      zero.structureEq negativeZero = false ∧ zero.numericEq negativeZero = true := by
  intro nan zero negativeZero
  obtain ⟨hiff, hequivalence, -, -, hnumeric⟩ := structureEq_equivalence
  exact ⟨ordinary_nestedDoubles, (hiff nestedDoubles nestedDoubles).mpr rfl,
    hnumeric nestedDoubles nestedDoubles ordinary_nestedDoubles, hequivalence.refl nan,
    by decide, by decide, by decide⟩

end TypedSyntax
