import Mathlib.Order.RelClasses
import TypedSyntax.Proofs.DataType.Order
import TypedSyntax.Proofs.Typing

/-!
# Acceptance

One type accepts another exactly when the open parts of both can be filled so
that the first becomes a type above the second. What is above accepts what is
below, and opening a part of a type never turns acceptance into refusal.
-/

namespace TypedSyntax.DataType

/-- The second type is the first with every `any` replaced by a specified type
and every missing parameter by a specified one, each on its own. -/
inductive Completes : DataType → DataType → Prop
  | any {t} : Specified t → Completes .any t
  | bareList {t} : Specified t → Completes .bareList (.list t)
  | bareSet {t} : Specified t → Completes .bareSet (.set t)
  | bareMap {k v} : Specified k → Specified v → Completes .bareMap (.map k v)
  | list {a a'} : Completes a a' → Completes (.list a) (.list a')
  | set {a a'} : Completes a a' → Completes (.set a) (.set a')
  | map {k k' v v'} : Completes k k' → Completes v v' → Completes (.map k v) (.map k' v')
  | tuple {as as'} : List.Forall₂ Completes as as' → Completes (.tuple as) (.tuple as')
  | scalar {t} : t.isAny = false → t.isCollection = false → Completes t t

variable {a a' b b' : DataType}

theorem forall_mem_of_forall₂ {α β : Type} {r : α → β → Prop} {p : β → Prop} {as : List α}
    {bs : List β} (h : List.Forall₂ r as bs) (hp : ∀ a ∈ as, ∀ b, r a b → p b) :
    ∀ b ∈ bs, p b := by
  induction h with
  | nil => exact List.forall_mem_nil _
  | cons hab _ ih =>
      obtain ⟨ha, has⟩ := List.forall_mem_cons.mp hp
      exact List.forall_mem_cons.mpr ⟨ha _ hab, ih has⟩

/-- A completed type is specified. -/
theorem Completes.specified (h : Completes a a') : Specified a' := by
  induction a using induction generalizing a' with
  | step a ih =>
    cases h with
    | any ht => exact ht
    | bareList ht | bareSet ht => exact .of (by simp) (List.forall_mem_singleton.mpr ht)
    | bareMap hk hv => exact .of (by simp) (by simp [arguments, hk, hv])
    | list h | set h =>
        exact .of (by simp) (List.forall_mem_singleton.mpr (ih _ List.mem_cons_self h))
    | map hk hv =>
        have hkey := ih _ List.mem_cons_self hk
        have hvalue := ih _ (by simp [arguments]) hv
        exact .of (by simp) (by simp [arguments, hkey, hvalue])
    | tuple h => exact .of (by simp) (forall_mem_of_forall₂ h fun a ha _ => ih a ha)
    | scalar hany hcollection =>
        cases a <;> simp_all [isAny, isCollection] <;>
          exact .of (by simp) (List.forall_mem_nil _)

theorem specified_boolean : Specified .boolean :=
  .of (by simp) (List.forall_mem_nil _)

/-- Every type can be completed. -/
theorem exists_completes (a : DataType) : ∃ a', Completes a a' := by
  induction a using induction with
  | step a ih =>
    cases a with
    | any => exact ⟨_, .any specified_boolean⟩
    | bareList => exact ⟨_, .bareList specified_boolean⟩
    | bareSet => exact ⟨_, .bareSet specified_boolean⟩
    | bareMap => exact ⟨_, .bareMap specified_boolean specified_boolean⟩
    | list item =>
        obtain ⟨item', h⟩ := ih item List.mem_cons_self
        exact ⟨_, .list h⟩
    | set item =>
        obtain ⟨item', h⟩ := ih item List.mem_cons_self
        exact ⟨_, .set h⟩
    | map key value =>
        obtain ⟨key', hk⟩ := ih key List.mem_cons_self
        obtain ⟨value', hv⟩ := ih value (by simp [arguments])
        exact ⟨_, .map hk hv⟩
    | tuple items =>
        obtain ⟨items', h⟩ := exists_forall₂ ih
        exact ⟨_, .tuple h⟩
    | _ => exact ⟨_, .scalar rfl rfl⟩

/-! ## What a type accepts -/

attribute [local simp] accepts

@[simp] theorem accepts_any (a : DataType) : a.accepts .any = true := by
  cases a <;> simp [isAny]

/-- Lists of types are accepted one by one. -/
theorem acceptsEach_iff {as bs : List DataType} :
    acceptsEach as bs = true ↔ List.Forall₂ (fun a b => a.accepts b = true) as bs := by
  induction as generalizing bs with
  | nil => cases bs <;> simp [acceptsEach]
  | cons a as ih => cases bs <;> simp [acceptsEach, ih]

theorem bareList_accepts_iff : bareList.accepts b = true ↔
    b = any ∨ b = bareList ∨ ∃ b', b = list b' := by
  cases b <;> simp

theorem bareSet_accepts_iff : bareSet.accepts b = true ↔
    b = any ∨ b = bareSet ∨ ∃ b', b = set b' := by
  cases b <;> simp

theorem bareMap_accepts_iff : bareMap.accepts b = true ↔
    b = any ∨ b = bareMap ∨ ∃ k v, b = map k v := by
  cases b <;> simp

/-- A list type accepts lists of what its element type accepts. -/
theorem list_accepts_iff : (list a).accepts b = true ↔
    b = any ∨ b = bareList ∨ ∃ b', b = list b' ∧ a.accepts b' = true := by
  cases b <;> simp

/-- A list type is accepted by lists of what accepts its element type. -/
theorem accepts_list_iff : a.accepts (list b) = true ↔
    a = any ∨ a = bareList ∨ ∃ a', a = list a' ∧ a'.accepts b = true := by
  cases a <;> simp [isAny]

theorem set_accepts_iff : (set a).accepts b = true ↔
    b = any ∨ b = bareSet ∨ ∃ b', b = set b' ∧ a.accepts b' = true := by
  cases b <;> simp

theorem accepts_set_iff : a.accepts (set b) = true ↔
    a = any ∨ a = bareSet ∨ ∃ a', a = set a' ∧ a'.accepts b = true := by
  cases a <;> simp [isAny]

/-- A map type accepts maps whose keys and values it accepts. -/
theorem map_accepts_iff {k v : DataType} : (map k v).accepts b = true ↔
    b = any ∨ b = bareMap ∨
      ∃ k' v', b = map k' v' ∧ k.accepts k' = true ∧ v.accepts v' = true := by
  cases b <;> simp

theorem accepts_map_iff {k v : DataType} : a.accepts (map k v) = true ↔
    a = any ∨ a = bareMap ∨
      ∃ k' v', a = map k' v' ∧ k'.accepts k = true ∧ v'.accepts v = true := by
  cases a <;> simp [isAny]

/-- A tuple type accepts tuples position by position, and a bare one accepts all. -/
theorem tuple_accepts_iff {as : List DataType} : (tuple as).accepts b = true ↔
    b = any ∨ ∃ bs, b = tuple bs ∧
      (as = [] ∨ List.Forall₂ (fun a b => a.accepts b = true) as bs) := by
  cases b <;> simp [acceptsEach_iff]

/-- A tuple type is accepted position by position, or by a bare one. -/
theorem accepts_tuple_iff {bs : List DataType} : a.accepts (tuple bs) = true ↔
    a = any ∨ ∃ as, a = tuple as ∧
      (as = [] ∨ List.Forall₂ (fun a b => a.accepts b = true) as bs) := by
  cases a <;> simp [acceptsEach_iff, isAny]

/-- Every type accepts itself. -/
theorem accepts_self (a : DataType) : a.accepts a = true := by
  induction a using induction with
  | step a ih =>
    cases a with
    | list item => exact list_accepts_iff.mpr (.inr (.inr ⟨_, rfl, ih _ List.mem_cons_self⟩))
    | set item => exact set_accepts_iff.mpr (.inr (.inr ⟨_, rfl, ih _ List.mem_cons_self⟩))
    | tuple items =>
        exact tuple_accepts_iff.mpr (.inr ⟨_, rfl, .inr (List.forall₂_same.mpr ih)⟩)
    | map key value =>
        have hkey := ih key List.mem_cons_self
        have hvalue := ih value (by simp [arguments])
        exact map_accepts_iff.mpr (.inr (.inr ⟨_, _, rfl, hkey, hvalue⟩))
    | _ => simp

/-- A type accepts the types below it. -/
theorem Above.accepts (h : Above a b) : a.accepts b = true := by
  induction a using induction generalizing b with
  | step a ih =>
    cases h with
    | refl => exact accepts_self a
    | int h | float h | complex h => simp [h]
    | floatInt | complexInt | complexFloat => simp
    | list h => exact list_accepts_iff.mpr (.inr (.inr ⟨_, rfl, ih _ List.mem_cons_self h⟩))
    | set h => exact set_accepts_iff.mpr (.inr (.inr ⟨_, rfl, ih _ List.mem_cons_self h⟩))
    | map hk hv =>
        have hkey := ih _ List.mem_cons_self hk
        have hvalue := ih _ (by simp [arguments]) hv
        exact map_accepts_iff.mpr (.inr (.inr ⟨_, _, rfl, hkey, hvalue⟩))
    | emptyTuple => exact tuple_accepts_iff.mpr (.inr ⟨_, rfl, .inl rfl⟩)
    | tuple h =>
        have heach := ((List.forall₂_and_left _ _).mpr ⟨ih, h⟩).imp fun _ _ h => h.1 h.2
        exact tuple_accepts_iff.mpr (.inr ⟨_, rfl, .inr heach⟩)

/-! ## Opening parts of types -/

/-- A type accepts what a completion of it accepts. -/
theorem Completes.accepts_left (ha : Completes a a') (h : a'.accepts b = true) :
    a.accepts b = true := by
  induction a using induction generalizing a' b with
  | step a ih =>
    cases ha with
    | any => simp
    | bareList => rcases list_accepts_iff.mp h with rfl | rfl | ⟨_, rfl, -⟩ <;> rfl
    | bareSet => rcases set_accepts_iff.mp h with rfl | rfl | ⟨_, rfl, -⟩ <;> rfl
    | bareMap => rcases map_accepts_iff.mp h with rfl | rfl | ⟨_, _, rfl, -, -⟩ <;> rfl
    | list ha =>
        rcases list_accepts_iff.mp h with rfl | rfl | ⟨b', rfl, h⟩
        · exact accepts_any _
        · rfl
        · exact ih _ List.mem_cons_self ha h
    | set ha =>
        rcases set_accepts_iff.mp h with rfl | rfl | ⟨b', rfl, h⟩
        · exact accepts_any _
        · rfl
        · exact ih _ List.mem_cons_self ha h
    | map hk hv =>
        rcases map_accepts_iff.mp h with rfl | rfl | ⟨k', v', rfl, hkey, hvalue⟩
        · exact accepts_any _
        · rfl
        · have hkey := ih _ List.mem_cons_self hk hkey
          have hvalue := ih _ (by simp [arguments]) hv hvalue
          exact map_accepts_iff.mpr (.inr (.inr ⟨_, _, rfl, hkey, hvalue⟩))
    | tuple ha =>
        rcases tuple_accepts_iff.mp h with rfl | ⟨bs, rfl, rfl | h⟩
        · exact accepts_any _
        · rw [List.forall₂_nil_right_iff.mp ha]
          rfl
        · have heach := forall₂_comp_of_mem (s := fun a b => a.accepts b = true)
            (fun a ha _ _ => ih a ha) ha h
          exact tuple_accepts_iff.mpr (.inr ⟨_, rfl, .inr heach⟩)
    | scalar => exact h

/-- What accepts a completion of a type accepts the type. -/
theorem Completes.accepts_right (hb : Completes b b') (h : a.accepts b' = true) :
    a.accepts b = true := by
  induction b using induction generalizing a b' with
  | step b ih =>
    cases hb with
    | any => exact accepts_any a
    | bareList => rcases accepts_list_iff.mp h with rfl | rfl | ⟨_, rfl, -⟩ <;> rfl
    | bareSet => rcases accepts_set_iff.mp h with rfl | rfl | ⟨_, rfl, -⟩ <;> rfl
    | bareMap => rcases accepts_map_iff.mp h with rfl | rfl | ⟨_, _, rfl, -, -⟩ <;> rfl
    | list hb =>
        rcases accepts_list_iff.mp h with rfl | rfl | ⟨a', rfl, h⟩
        · rfl
        · rfl
        · exact ih _ List.mem_cons_self hb h
    | set hb =>
        rcases accepts_set_iff.mp h with rfl | rfl | ⟨a', rfl, h⟩
        · rfl
        · rfl
        · exact ih _ List.mem_cons_self hb h
    | map hk hv =>
        rcases accepts_map_iff.mp h with rfl | rfl | ⟨k', v', rfl, hkey, hvalue⟩
        · rfl
        · rfl
        · have hkey := ih _ List.mem_cons_self hk hkey
          have hvalue := ih _ (by simp [arguments]) hv hvalue
          exact map_accepts_iff.mpr (.inr (.inr ⟨_, _, rfl, hkey, hvalue⟩))
    | tuple hb =>
        rcases accepts_tuple_iff.mp h with rfl | ⟨as, rfl, rfl | h⟩
        · rfl
        · exact tuple_accepts_iff.mpr (.inr ⟨_, rfl, .inl rfl⟩)
        · have heach := forall₂_comp_of_mem (t := flip fun a b => a.accepts b = true)
            (fun b hb _ _ hab => ih b hb hab) hb h.flip
          exact tuple_accepts_iff.mpr (.inr ⟨_, rfl, .inr heach.flip⟩)
    | scalar => exact h

/-- Types that are completed one by one are completed together. -/
theorem exists_forall₂_of_exists {α : Type} {r s t : α → α → Prop} {as bs : List α}
    (h : List.Forall₂ (fun a b => ∃ a' b', r a a' ∧ s b b' ∧ t a' b') as bs) :
    ∃ as' bs', List.Forall₂ r as as' ∧ List.Forall₂ s bs bs' ∧ List.Forall₂ t as' bs' := by
  induction h with
  | nil => exact ⟨[], [], .nil, .nil, .nil⟩
  | cons h _ ih =>
      obtain ⟨a', b', ha, hb, hab⟩ := h
      obtain ⟨as', bs', has, hbs, hall⟩ := ih
      exact ⟨a' :: as', b' :: bs', .cons ha has, .cons hb hbs, .cons hab hall⟩

/-- A scalar accepts no type but `any` that is not below it. -/
theorem above_of_scalar_accepts (hany : a.isAny = false) (ha : a.isCollection = false)
    (hb : b ≠ any) (h : a.accepts b = true) : Above a b := by
  cases a with
  | any => cases hany
  | bareList | list | bareSet | set | tuple | bareMap | map => cases ha
  | int signed w =>
      cases b with
      | int signed' w' =>
          obtain ⟨rfl, hle⟩ : signed = signed' ∧ w'.bits ≤ w.bits := by simpa using h
          exact .int hle
      | any => exact absurd rfl hb
      | _ => simp at h
  | float w =>
      cases b with
      | int => exact .floatInt
      | float => exact .float (by simpa using h)
      | any => exact absurd rfl hb
      | _ => simp at h
  | complex w =>
      cases b with
      | int => exact .complexInt
      | float => exact .complexFloat
      | complex => exact .complex (by simpa using h)
      | any => exact absurd rfl hb
      | _ => simp at h
  | _ =>
      rcases Bool.or_eq_true_iff.mp h with h | h
      · exact absurd (isAny_iff.mp h) hb
      · exact eq_of_beq h ▸ .refl _

theorem Above.completes_scalar (h : Above a b) (hany : a.isAny = false)
    (ha : a.isCollection = false) : Completes b b := by
  cases h with
  | refl => exact .scalar hany ha
  | list | set | map | emptyTuple | tuple => cases ha
  | _ => exact .scalar rfl rfl

/-- If a type accepts another, some completion of the first is above some
completion of the second. -/
theorem exists_above_of_accepts (h : a.accepts b = true) :
    ∃ a' b', Completes a a' ∧ Completes b b' ∧ Above a' b' := by
  induction a using induction generalizing b with
  | step a ih =>
    by_cases hany : b = any
    · subst hany
      obtain ⟨a', ha⟩ := exists_completes a
      exact ⟨a', a', ha, .any ha.specified, .refl a'⟩
    · cases a with
      | any =>
          obtain ⟨b', hb⟩ := exists_completes b
          exact ⟨b', b', .any hb.specified, hb, .refl b'⟩
      | bareList =>
          rcases bareList_accepts_iff.mp h with rfl | rfl | ⟨item', rfl⟩
          · exact absurd rfl hany
          · exact ⟨_, _, .bareList specified_boolean, .bareList specified_boolean, .refl _⟩
          · obtain ⟨t, ht⟩ := exists_completes item'
            exact ⟨_, _, .bareList ht.specified, .list ht, .refl _⟩
      | bareSet =>
          rcases bareSet_accepts_iff.mp h with rfl | rfl | ⟨item', rfl⟩
          · exact absurd rfl hany
          · exact ⟨_, _, .bareSet specified_boolean, .bareSet specified_boolean, .refl _⟩
          · obtain ⟨t, ht⟩ := exists_completes item'
            exact ⟨_, _, .bareSet ht.specified, .set ht, .refl _⟩
      | bareMap =>
          have hbare := Completes.bareMap specified_boolean specified_boolean
          rcases bareMap_accepts_iff.mp h with rfl | rfl | ⟨key', value', rfl⟩
          · exact absurd rfl hany
          · exact ⟨_, _, hbare, hbare, .refl _⟩
          · obtain ⟨k, hk⟩ := exists_completes key'
            obtain ⟨v, hv⟩ := exists_completes value'
            exact ⟨_, _, .bareMap hk.specified hv.specified, .map hk hv, .refl _⟩
      | list item =>
          rcases list_accepts_iff.mp h with rfl | rfl | ⟨item', rfl, h⟩
          · exact absurd rfl hany
          · obtain ⟨t, ht⟩ := exists_completes item
            exact ⟨_, _, .list ht, .bareList ht.specified, .refl _⟩
          · obtain ⟨s, t, hs, ht, hst⟩ := ih item List.mem_cons_self h
            exact ⟨_, _, .list hs, .list ht, .list hst⟩
      | set item =>
          rcases set_accepts_iff.mp h with rfl | rfl | ⟨item', rfl, h⟩
          · exact absurd rfl hany
          · obtain ⟨t, ht⟩ := exists_completes item
            exact ⟨_, _, .set ht, .bareSet ht.specified, .refl _⟩
          · obtain ⟨s, t, hs, ht, hst⟩ := ih item List.mem_cons_self h
            exact ⟨_, _, .set hs, .set ht, .set hst⟩
      | map key value =>
          rcases map_accepts_iff.mp h with rfl | rfl | ⟨key', value', rfl, hkey, hvalue⟩
          · exact absurd rfl hany
          · obtain ⟨k, hk⟩ := exists_completes key
            obtain ⟨v, hv⟩ := exists_completes value
            exact ⟨_, _, .map hk hv, .bareMap hk.specified hv.specified, .refl _⟩
          · obtain ⟨k, k', hk, hk', habove⟩ := ih key List.mem_cons_self hkey
            obtain ⟨v, v', hv, hv', habove'⟩ := ih value (by simp [arguments]) hvalue
            exact ⟨_, _, .map hk hv, .map hk' hv', .map habove habove'⟩
      | tuple items =>
          rcases tuple_accepts_iff.mp h with rfl | ⟨items', rfl, rfl | h⟩
          · exact absurd rfl hany
          · obtain ⟨ts, hts⟩ := exists_forall₂ fun t (_ : t ∈ items') => exists_completes t
            exact ⟨_, _, .tuple .nil, .tuple hts, .emptyTuple⟩
          · have heach := (List.forall₂_and_left _ _).mpr ⟨ih, h⟩
            obtain ⟨ss, ts, hs, ht, hst⟩ :=
              exists_forall₂_of_exists (heach.imp fun _ _ h => h.1 h.2)
            exact ⟨_, _, .tuple hs, .tuple ht, .tuple hst⟩
      | _ =>
          have habove := above_of_scalar_accepts rfl rfl hany h
          exact ⟨_, b, .scalar rfl rfl, habove.completes_scalar rfl rfl, habove⟩

/-- The specified types are partially ordered, and a type accepts another
exactly when the open parts of both can be filled so that the first becomes a
type above the second. -/
theorem accepts_iff_exists_ge :
    IsPartialOrder SpecifiedType (· ≥ ·) ∧
      ∀ a b : DataType, a.accepts b = true ↔
        ∃ s t : SpecifiedType, Completes a s ∧ Completes b t ∧ s ≥ t := by
  refine ⟨inferInstance, fun a b => ?_⟩
  constructor
  · intro h
    obtain ⟨a', b', ha, hb, habove⟩ := exists_above_of_accepts h
    exact ⟨⟨a', ha.specified⟩, ⟨b', hb.specified⟩, ha, hb, habove⟩
  · rintro ⟨s, t, hs, ht, hst⟩
    have haccepts : s.1.accepts t.1 = true := Above.accepts hst
    exact ht.accepts_right (hs.accepts_left haccepts)

/-- Acceptance itself is no order: an open part may be filled in one way on the
left and in another on the right. -/
example : (list string).accepts bareList = true ∧ bareList.accepts (list boolean) = true ∧
    (list string).accepts (list boolean) = false :=
  ⟨rfl, rfl, rfl⟩

end TypedSyntax.DataType
