import Mathlib.Data.List.Forall2
import Mathlib.Order.Defs.PartialOrder
import TypedSyntax.Proofs.DataType

/-!
# The order of specified types

A type is specified if nothing in it is left open. One specified type is above
another if every value of the second is, after widening numbers, a value of the
first. This is a partial order.
-/

namespace TypedSyntax

theorem IntWidth.bits_inj {w w' : IntWidth} : w.bits = w'.bits ↔ w = w' := by
  cases w <;> cases w' <;> decide

theorem FloatWidth.bits_inj {w w' : FloatWidth} : w.bits = w'.bits ↔ w = w' := by
  cases w <;> cases w' <;> decide

theorem ComplexWidth.bits_inj {w w' : ComplexWidth} : w.bits = w'.bits ↔ w = w' := by
  cases w <;> cases w' <;> decide

namespace DataType

/-- A type without open parts: neither `any` nor a collection without
parameters stands in it at any depth. -/
inductive Specified : DataType → Prop
  | of {t} : t ∉ [any, bareList, bareSet, bareMap] → (∀ a ∈ t.arguments, Specified a) → Specified t

/-- The rules that generate the order: numbers widen without loss, collections
follow their parameters, and the empty tuple stands for all tuples. -/
inductive Above : DataType → DataType → Prop
  | refl (t) : Above t t
  | int {signed w w'} : w'.bits ≤ w.bits → Above (.int signed w) (.int signed w')
  | floatInt {w signed w'} : Above (.float w) (.int signed w')
  | float {w w'} : w'.bits ≤ w.bits → Above (.float w) (.float w')
  | complexInt {w signed w'} : Above (.complex w) (.int signed w')
  | complexFloat {w w'} : Above (.complex w) (.float w')
  | complex {w w'} : w'.bits ≤ w.bits → Above (.complex w) (.complex w')
  | list {a b} : Above a b → Above (.list a) (.list b)
  | set {a b} : Above a b → Above (.set a) (.set b)
  | map {k v k' v'} : Above k k' → Above v v' → Above (.map k v) (.map k' v')
  | emptyTuple {ts} : Above (.tuple []) (.tuple ts)
  | tuple {as bs} : List.Forall₂ Above as bs → Above (.tuple as) (.tuple bs)

/-- Componentwise relations compose if the relations do at the first
components. -/
theorem forall₂_comp_of_mem {α : Type} {r s t : α → α → Prop} {as bs cs : List α}
    (hcomp : ∀ a ∈ as, ∀ b c, r a b → s b c → t a c) (hab : List.Forall₂ r as bs)
    (hbc : List.Forall₂ s bs cs) : List.Forall₂ t as cs := by
  induction hab generalizing cs with
  | nil =>
      rw [List.forall₂_nil_left_iff.mp hbc]
      exact List.Forall₂.nil
  | cons h _ ih =>
      obtain ⟨c, cs, hc, hcs, rfl⟩ := List.forall₂_cons_left_iff.mp hbc
      obtain ⟨ha, has⟩ := List.forall_mem_cons.mp hcomp
      exact List.Forall₂.cons (ha _ _ h hc) (ih has hcs)

theorem eq_of_forall₂_of_mem {α : Type} {r : α → α → Prop} {as bs : List α}
    (hanti : ∀ a ∈ as, ∀ b, r a b → r b a → a = b) (hab : List.Forall₂ r as bs)
    (hba : List.Forall₂ r bs as) : as = bs := by
  induction hab with
  | nil => rfl
  | cons h _ ih =>
      obtain ⟨ha, has⟩ := List.forall_mem_cons.mp hanti
      obtain ⟨hb, hbs⟩ := List.forall₂_cons.mp hba
      rw [ha _ h hb, ih has hbs]

/-- A chain of two rules is one rule. -/
theorem Above.trans {a b c : DataType} (hab : Above a b) (hbc : Above b c) : Above a c := by
  induction a using induction generalizing b c with
  | step a ih =>
    cases hab with
    | refl => exact hbc
    | int h =>
        cases hbc with
        | refl => exact .int h
        | int h' => exact .int (Nat.le_trans h' h)
    | floatInt => cases hbc <;> exact .floatInt
    | float h =>
        cases hbc with
        | refl => exact .float h
        | floatInt => exact .floatInt
        | float h' => exact .float (Nat.le_trans h' h)
    | complexInt => cases hbc <;> exact .complexInt
    | complexFloat =>
        cases hbc with
        | floatInt => exact .complexInt
        | refl | float => exact .complexFloat
    | complex h =>
        cases hbc with
        | refl => exact .complex h
        | complexInt => exact .complexInt
        | complexFloat => exact .complexFloat
        | complex h' => exact .complex (Nat.le_trans h' h)
    | list h =>
        cases hbc with
        | refl => exact .list h
        | list h' => exact .list (ih _ List.mem_cons_self h h')
    | set h =>
        cases hbc with
        | refl => exact .set h
        | set h' => exact .set (ih _ List.mem_cons_self h h')
    | map hk hv =>
        cases hbc with
        | refl => exact .map hk hv
        | map hk' hv' =>
            exact .map (ih _ List.mem_cons_self hk hk') (ih _ (by simp [arguments]) hv hv')
    | emptyTuple => cases hbc <;> exact .emptyTuple
    | tuple h =>
        cases hbc with
        | refl => exact .tuple h
        | emptyTuple =>
            rw [List.forall₂_nil_right_iff.mp h]
            exact .emptyTuple
        | tuple h' =>
            exact .tuple (forall₂_comp_of_mem (s := Above) (fun a ha _ _ => ih a ha) h h')

/-- Types that are above each other are equal. -/
theorem Above.antisymm {a b : DataType} (hab : Above a b) (hba : Above b a) : a = b := by
  induction a using induction generalizing b with
  | step a ih =>
    cases hab with
    | refl => rfl
    | int h =>
        cases hba with
        | refl => rfl
        | int h' => rw [IntWidth.bits_inj.mp (Nat.le_antisymm h' h)]
    | float h =>
        cases hba with
        | refl => rfl
        | float h' => rw [FloatWidth.bits_inj.mp (Nat.le_antisymm h' h)]
    | complex h =>
        cases hba with
        | refl => rfl
        | complex h' => rw [ComplexWidth.bits_inj.mp (Nat.le_antisymm h' h)]
    | floatInt | complexInt | complexFloat => cases hba
    | list h =>
        cases hba with
        | refl => rfl
        | list h' => rw [ih _ List.mem_cons_self h h']
    | set h =>
        cases hba with
        | refl => rfl
        | set h' => rw [ih _ List.mem_cons_self h h']
    | map hk hv =>
        cases hba with
        | refl => rfl
        | map hk' hv' =>
            rw [ih _ List.mem_cons_self hk hk', ih _ (by simp [arguments]) hv hv']
    | emptyTuple =>
        cases hba with
        | refl | emptyTuple => rfl
        | tuple h => rw [List.forall₂_nil_right_iff.mp h]
    | tuple h =>
        cases hba with
        | refl => rfl
        | emptyTuple => rw [List.forall₂_nil_right_iff.mp h]
        | tuple h' => exact congrArg _ (eq_of_forall₂_of_mem (fun a ha _ => ih a ha) h h')

end DataType

/-- A type without open parts. -/
abbrev SpecifiedType :=
  { t : DataType // t.Specified }

instance : PartialOrder SpecifiedType where
  le s t := t.1.Above s.1
  le_refl t := .refl t.1
  le_trans _ _ _ hst htu := htu.trans hst
  le_antisymm _ _ hst hts := Subtype.ext (hts.antisymm hst)

end TypedSyntax
