import TypedSyntax.Proofs.DataType
import TypedSyntax.Proofs.Export.Subtree
import TypedSyntax.Proofs.Json.Codec
import TypedSyntax.Proofs.Literal

/-!
# Literals of equal structure

Two literals have the same structure exactly when they have the same type and
equal values: integers as numbers, whatever word holds them, doubles bit by
bit but for the payload of a NaN, texts character by character. What is
exported of a value holds only numbers that JSON can write.
-/

namespace TypedSyntax

open Json (Number)

/-- Equality of doubles bit by bit, in which all NaNs are equal. -/
def Double.Agrees (x y : Double) : Prop :=
  x = y ∨ (x.isNaN = true ∧ y.isNaN = true)

theorem Double.canonical_eq_iff {x y : Double} : x.canonical = y.canonical ↔ x.Agrees y := by
  have hnan : isNaN ⟨BitVec.ofNat 64 (infinityBits + 1)⟩ = true := by decide
  -- A double that is the chosen NaN, or equal to a NaN, is one itself.
  have hne : ∀ {y z : Double}, y.isNaN = false → z.isNaN = true → y ≠ z := by
    rintro y z hy hz rfl
    exact Bool.false_ne_true (hy.symm.trans hz)
  unfold canonical Agrees
  cases hx : x.isNaN <;> cases hy : y.isNaN
  · simp
  · simp [hne hx hnan, hne hx hy]
  · simp [(hne hy hnan).symm, (hne hy hx).symm]
  · simp

namespace LiteralValue

variable {v v' : LiteralValue} {type type' : DataType}

/-- The integer that a word holds. -/
def integer? : LiteralValue → Option Int
  | .int w => some w.toInt
  | .uint w => some w.toNat
  | _ => none

/-- Equality of literal values. Signed and unsigned words are equal if they hold
the same integer. -/
inductive Agrees : LiteralValue → LiteralValue → Prop
  | bool {b} : Agrees (.bool b) (.bool b)
  | integer {v v' i} : v.integer? = some i → v'.integer? = some i → Agrees v v'
  | float {x y} : x.Agrees y → Agrees (.float x) (.float y)
  | complex {x y x' y'} : x.Agrees x' → y.Agrees y' → Agrees (.complex x y) (.complex x' y')
  | text {s} : Agrees (.text s) (.text s)
  | char {c} : Agrees (.char c) (.char c)
  | temporal {s} : Agrees (.temporal s) (.temporal s)

theorem Agrees.refl (v : LiteralValue) : v.Agrees v := by
  cases v with
  | int | uint => exact Agrees.integer rfl rfl
  | float => exact Agrees.float (Or.inl rfl)
  | complex => exact Agrees.complex (Or.inl rfl) (Or.inl rfl)
  | bool => exact Agrees.bool
  | text => exact Agrees.text
  | char => exact Agrees.char
  | temporal => exact Agrees.temporal

theorem canonical_of_integer? {i : Int} (h : v.integer? = some i) :
    v.canonical = ofInteger i := by
  cases v with
  | int w =>
      obtain rfl := Option.some.inj h
      exact canonical_int w
  | uint w =>
      obtain rfl := Option.some.inj h
      exact canonical_uint w
  | _ => cases h

theorem integer?_canonical (v : LiteralValue) : v.canonical.integer? = v.integer? := by
  cases v with
  | int w =>
      rw [canonical]
      split
      · rfl
      · next h => exact congrArg some (toNat_eq_toInt h)
  | _ => rfl

/-- Values agree exactly when they have the same canonical form. -/
theorem canonical_eq_iff : v.canonical = v'.canonical ↔ v.Agrees v' := by
  constructor
  · intro h
    have hinteger : v.integer? = v'.integer? := by
      rw [← integer?_canonical v, h, integer?_canonical]
    cases hv : v.integer? with
    | some i => exact Agrees.integer hv (hinteger ▸ hv)
    | none =>
        rw [hv] at hinteger
        cases v with
        | int | uint => cases hv
        | float x =>
            cases v' with
            | float y =>
                exact Agrees.float (Double.canonical_eq_iff.mp (LiteralValue.float.inj h))
            | int | uint => cases hinteger
            | _ => cases h
        | complex x y =>
            cases v' with
            | complex x' y' =>
                obtain ⟨hreal, himag⟩ := LiteralValue.complex.inj h
                exact Agrees.complex (Double.canonical_eq_iff.mp hreal)
                  (Double.canonical_eq_iff.mp himag)
            | int | uint => cases hinteger
            | _ => cases h
        | bool | text | char | temporal =>
            cases v' with
            | int | uint => cases hinteger
            | _ => cases h <;> exact Agrees.refl _
  · intro h
    cases h with
    | integer hv hv' => rw [canonical_of_integer? hv, canonical_of_integer? hv']
    | float hx => exact congrArg LiteralValue.float (Double.canonical_eq_iff.mpr hx)
    | complex hx hy =>
        rw [canonical, canonical, Double.canonical_eq_iff.mpr hx, Double.canonical_eq_iff.mpr hy]
    | bool | text | char | temporal => rfl

/-- Literals of one type have the same export exactly when their values
agree. -/
theorem toDatum_eq_iff (hv : v.Belongs type) (hv' : v'.Belongs type) :
    v.toDatum = v'.toDatum ↔ v.Agrees v' := by
  rw [← canonical_eq_iff]
  constructor
  · exact hv.canonical_eq hv'
  · intro h
    rw [← toDatum_canonical v, h, toDatum_canonical]

/-! ## Exported numbers -/

/-- JSON can write the number: it is an integer of 64 bits or a finite double, and
it is written without quotes. -/
def Writable : Number → Prop
  | .int i => (-0x8000000000000000 ≤ i ∧ i ≤ 0xFFFFFFFFFFFFFFFF) ∧
    Json.integer i = (toString i).toList
  | .float x => x.isFinite = true ∧ Json.float x = (Json.numberLayout.text x).toList

theorem writable_integerDatum (i : Int) : ∀ n ∈ (integerDatum i).numbers, Writable n := by
  unfold integerDatum
  split
  · next h =>
    have hbounds := h
    simp only [Datum.fitsWord, Bool.and_eq_true, decide_eq_true_eq] at hbounds
    exact List.forall_mem_singleton.mpr
      ⟨⟨hbounds.1, Int.lt_add_one_iff.mp hbounds.2⟩, if_pos h⟩
  · exact List.forall_mem_nil _

theorem writable_floatDatum (x : Double) : ∀ n ∈ (floatDatum x).numbers, Writable n := by
  unfold floatDatum
  split
  · next h => exact List.forall_mem_singleton.mpr ⟨h, if_pos h⟩
  · exact List.forall_mem_nil _

/-- All numbers in the export of a value can be written. -/
theorem writable_toDatum (v : LiteralValue) : ∀ n ∈ v.toDatum.numbers, Writable n := by
  cases v with
  | int | uint => exact writable_integerDatum _
  | float x => exact writable_floatDatum x
  | complex real imag =>
      intro n hn
      rw [toDatum, Datum.numbers, Datum.fold_map] at hn
      obtain ⟨ns, hns, hn⟩ := List.mem_flatten.mp hn
      simp only [List.map_cons, List.map_nil, List.mem_cons, List.not_mem_nil, or_false] at hns
      rcases hns with rfl | rfl
      · exact writable_floatDatum real n hn
      · exact writable_floatDatum imag n hn
  | bool | text | char | temporal => exact List.forall_mem_nil _

/-- No number in the export of a value is replaced by a text. -/
theorem legible_toDatum (v : LiteralValue) : v.toDatum.legible = v.toDatum :=
  v.toDatum.legible_eq_self (fun i hi => (v.writable_toDatum (.int i) hi).1)
    fun x hx => (v.writable_toDatum (.float x) hx).1

end LiteralValue

namespace Tree

/-- The export of a literal is its value under its type. -/
theorem toDatum_literal_run (actions : List Workspace.Action) (i : Nat) {id : NodeId}
    {v : LiteralValue} {type : DataType}
    (h : ((Workspace.run actions).tree i).payload id = .ok (.literal v type)) :
    ((Workspace.run actions).tree i).toDatum id .simplified =
      .ok (.single ("LITERAL[" ++ type.key ++ "]") v.toDatum) := by
  obtain ⟨g, hg⟩ := cuts_run actions i
  obtain ⟨node, hnode, hpayload⟩ := payload_eq_ok_iff.mp h
  rw [hg.toDatum_eq (has_of_node hnode), hg.node_eq hnode, hpayload]
  rfl

/-- Literals of trees after any runs have the same structure exactly when their
types are the same and their values agree. Their exports hold only integers of
64 bits and finite doubles, which the JSON text shows as they are. -/
theorem structureEq_literal_run (actions others : List Workspace.Action) (i j : Nat)
    (id id' : NodeId) (v v' : LiteralValue) (type type' : DataType)
    (h : ((Workspace.run actions).tree i).payload id = .ok (.literal v type))
    (h' : ((Workspace.run others).tree j).payload id' = .ok (.literal v' type')) :
    (∃ same, ((Workspace.run actions).tree i).structureEq id ((Workspace.run others).tree j) id' =
        .ok same ∧ (same = true ↔ type = type' ∧ v.Agrees v')) ∧
      ((Workspace.run actions).tree i).toDatum id .simplified =
        .ok (.single ("LITERAL[" ++ type.key ++ "]") v.toDatum) ∧
      (∀ n, .int n ∈ v.toDatum.numbers → (-0x8000000000000000 ≤ n ∧ n ≤ 0xFFFFFFFFFFFFFFFF) ∧
        Json.integer n = (toString n).toList) ∧
      (∀ x, .float x ∈ v.toDatum.numbers → x.isFinite = true ∧
        Json.float x = (Json.numberLayout.text x).toList) ∧
      v.toDatum.legible = v.toDatum := by
  have hdatum := toDatum_literal_run actions i h
  have hdatum' := toDatum_literal_run others j h'
  have hbelongs : v.Belongs type := typed_run actions i h v type rfl
  have hbelongs' : v'.Belongs type' := typed_run others j h' v' type' rfl
  refine ⟨⟨(Datum.single ("LITERAL[" ++ type.key ++ "]") v.toDatum).structureEq
      (.single ("LITERAL[" ++ type'.key ++ "]") v'.toDatum), ?_, ?_⟩, hdatum,
    fun n hn => v.writable_toDatum (.int n) hn,
    fun x hx => v.writable_toDatum (.float x) hx, v.legible_toDatum⟩
  · rw [structureEq, hdatum, hdatum']
    rfl
  · rw [Datum.structureEq_iff, Datum.single, Datum.single, Datum.map.injEq, List.cons.injEq,
      Prod.mk.injEq, and_iff_left rfl, String.append_left_inj, String.append_right_inj,
      Function.Injective.eq_iff DataType.key_injective]
    constructor
    · rintro ⟨rfl, hvalue⟩
      exact ⟨rfl, (LiteralValue.toDatum_eq_iff hbelongs hbelongs').mp hvalue⟩
    · rintro ⟨rfl, hvalue⟩
      exact ⟨rfl, (LiteralValue.toDatum_eq_iff hbelongs hbelongs').mpr hvalue⟩

/-- A run that builds the integer 2⁶⁴ from a signed and from an unsigned word. -/
def wideIntegers : List Workspace.Action :=
  [.newTree,
    .build 0 (.literal (.int 0x10000000000000000) (.int false .w128)),
    .build 0 (.literal (.uint 0x10000000000000000) (.int false .w128))]

theorem structureEq_wideIntegers :
    let tree := (Workspace.run wideIntegers).tree 0
    tree.payload ⟨0, 0⟩ = .ok (.literal (.int 0x10000000000000000) (.int false .w128)) ∧
      tree.payload ⟨0, 1⟩ = .ok (.literal (.uint 0x10000000000000000) (.int false .w128)) ∧
      tree.structureEq ⟨0, 0⟩ tree ⟨0, 1⟩ = .ok true ∧
      tree.toDatum ⟨0, 0⟩ .simplified =
        .ok (.single "LITERAL[UInt128]" (.text "18446744073709551616")) := by
  intro tree
  have hsigned : tree.payload ⟨0, 0⟩ =
      .ok (.literal (.int 0x10000000000000000) (.int false .w128)) := rfl
  have hunsigned : tree.payload ⟨0, 1⟩ =
      .ok (.literal (.uint 0x10000000000000000) (.int false .w128)) := rfl
  obtain ⟨⟨same, hsame, hiff⟩, hdatum, -⟩ := structureEq_literal_run wideIntegers wideIntegers 0 0
    ⟨0, 0⟩ ⟨0, 1⟩ _ _ _ _ hsigned hunsigned
  have hagrees : LiteralValue.Agrees (.int 0x10000000000000000) (.uint 0x10000000000000000) :=
    LiteralValue.Agrees.integer (i := 0x10000000000000000) (by decide) (by decide)
  rw [hiff.mpr ⟨rfl, hagrees⟩] at hsame
  have htext : Datum.single ("LITERAL[" ++ (DataType.int false .w128).key ++ "]")
      (LiteralValue.int 0x10000000000000000).toDatum =
        .single "LITERAL[UInt128]" (.text "18446744073709551616") :=
    Datum.structureEq_iff.mp (by decide +kernel)
  exact ⟨hsigned, hunsigned, hsame, hdatum.trans (congrArg Except.ok htext)⟩

end Tree

end TypedSyntax
