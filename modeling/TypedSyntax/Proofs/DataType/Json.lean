import Mathlib.Data.List.Nodup
import TypedSyntax.DataType.Json
import TypedSyntax.Proofs.DataType
import TypedSyntax.Proofs.Json.Printing

/-!
# Types through JSON

The compact text of a type is read back as the type if it has at most 127 levels of
brackets. No form of a type is that of another one, at any depth.
-/

namespace TypedSyntax.DataType

open Json

variable {t : DataType} {depth : Nat} {content : Value} {item? : Nat → Option DataType}
  {items? : Nat → Option (List DataType)}

theorem toJsonList_eq_map (ts : List DataType) : toJsonList ts = ts.map toJson := by
  induction ts with
  | nil => rfl
  | cons t ts ih => rw [toJsonList, ih, List.map_cons]

/-! ## Reading one level -/

/-- The name of a type is read without depth. -/
theorem readsWithin_name {s : String} (h : ofName? s = some t) :
    ReadsWithin (ofJson? · (.ofString s)) (Value.ofString s).depth t := by
  intro depth
  dsimp only
  rw [Value.depth_ofString, if_pos (Nat.zero_le depth), Value.ofString, ofJson?,
    stringOf?_map_char, Option.bind_some, h]

/-- A type with content is read at one depth more than its content. -/
theorem readsWithin_choice {name : String} {n : Nat}
    (h : ReadsWithin (fun depth => ofChoice? depth content (ofJson? · content)
      (ofItems? · content) name) n t) :
    ReadsWithin (ofJson? · (.ofChoice name content)) (n + 1) t := by
  intro depth
  dsimp only
  rw [Value.ofChoice, ofJson?, stringOf?_map_char]
  exact h.enter depth

/-- A list of all sizes, in which a name is printed as it is and stands for one size. -/
structure Naming {α : Type} (all : List α) (nameOf : α → String) : Prop where
  mem : ∀ width, width ∈ all
  nodup : (all.map nameOf).Nodup
  printable : ∀ width ∈ all, Printable (nameOf width)

theorem naming_intWidth : Naming IntWidth.all IntWidth.name :=
  ⟨fun width => by cases width <;> decide, by decide, by decide⟩

theorem naming_floatWidth : Naming FloatWidth.all FloatWidth.name :=
  ⟨fun width => by cases width <;> decide, by decide, by decide⟩

theorem naming_complexWidth : Naming ComplexWidth.all ComplexWidth.name :=
  ⟨fun width => by cases width <;> decide, by decide, by decide⟩

section Naming

variable {α : Type} {all : List α} {nameOf : α → String} (h : Naming all nameOf)
include h

/-- A size is found by its name. -/
theorem Naming.find?_eq (width : α) : all.find? (nameOf · == nameOf width) = some width := by
  have hfound : (all.find? (nameOf · == nameOf width)).isSome = true :=
    List.find?_isSome.mpr ⟨width, h.mem width, beq_self_eq_true _⟩
  obtain ⟨found, hfind⟩ := Option.isSome_iff_exists.mp hfound
  have hbeq : (nameOf found == nameOf width) = true :=
    List.find?_some (p := fun w => nameOf w == nameOf width) hfind
  have hname : nameOf found = nameOf width := beq_iff_eq.mp hbeq
  rw [hfind, List.inj_on_of_nodup_map h.nodup (h.mem found) (h.mem width) hname]

theorem Naming.stable_name (width : α) : (Value.ofString (nameOf width)).Stable :=
  stable_ofString (h.printable width (h.mem width))

end Naming

/-- Sign and width of an integer type are read back. -/
theorem readsWithin_intFields (signed : Bool) (width : IntWidth) :
    ReadsWithin (ofIntFields? ·
      (.ofRecord [("signed", .bool signed), ("width", .ofString width.name)])) 1
      (.int signed width) := by
  have hfields : fields? ["signed", "width"]
      (.ofRecord [("signed", .bool signed), ("width", .ofString width.name)]) =
        some [some (.bool signed), some (.ofString width.name)] :=
    fields?_ofRecord (by simp)
  intro depth
  cases depth with
  | zero => rfl
  | succ depth =>
    simp [ofIntFields?, enter?, hfields, oneOf?_ofString, bool?, naming_intWidth.find?_eq]

/-- The width of a type is read back by its name. -/
theorem readsWithin_widthField {α : Type} {all : List α} {nameOf : α → String}
    (h : Naming all nameOf) (make : α → DataType) (width : α) :
    ReadsWithin (ofWidthField? all nameOf make ·
      (.ofRecord [("width", .ofString (nameOf width))])) 1 (make width) := by
  have hfields : fields? ["width"] (.ofRecord [("width", .ofString (nameOf width))]) =
      some [some (.ofString (nameOf width))] :=
    fields?_ofRecord (by simp)
  intro depth
  cases depth with
  | zero => rfl
  | succ depth => simp [ofWidthField?, enter?, hfields, oneOf?_ofString, h.find?_eq]

theorem toJson_ne_null (t : DataType) : t.toJson ≠ .null := by
  cases t <;> simp [toJson, Value.ofString, Value.ofChoice]

theorem ofChoice?_list (h : content ≠ .null) :
    ofChoice? depth content item? items? "List" = (item? depth).map .list := by
  cases content <;> first | rfl | contradiction

theorem ofChoice?_set (h : content ≠ .null) :
    ofChoice? depth content item? items? "Set" = (item? depth).map .set := by
  cases content <;> first | rfl | contradiction

/-- The form of a type is read if its levels remain. -/
def Readable (t : DataType) : Prop :=
  ReadsWithin (ofJson? · t.toJson) t.toJson.depth t

/-- The types of a list are read back one by one. -/
theorem readsWithin_items {ts : List DataType} (h : ∀ t ∈ ts, t.Readable) :
    ReadsWithin (ofJsonList? · (ts.map toJson)) (Value.depthItems (ts.map toJson)) ts := by
  induction ts with
  | nil => exact readsWithin_some []
  | cons t ts ih =>
    obtain ⟨ht, hts⟩ := List.forall_mem_cons.mp h
    intro depth
    simp only [List.map_cons, ofJsonList?, ht depth, ih hts depth, Value.depthItems, Nat.max_le]
    by_cases hhead : t.toJson.depth ≤ depth
    · by_cases htail : Value.depthItems (ts.map toJson) ≤ depth <;> simp [hhead, htail]
    · simp [hhead]

/-- Every type is read back at the depth of its text. -/
theorem readable (t : DataType) : t.Readable := by
  induction t using DataType.induction with
  | step t ih =>
    cases t with
    | int signed width =>
      exact readsWithin_choice (readsWithin_intFields signed width)
    | float width =>
      exact readsWithin_choice (readsWithin_widthField naming_floatWidth .float width)
    | complex width =>
      exact readsWithin_choice (readsWithin_widthField naming_complexWidth .complex width)
    | bareList | bareSet | bareMap => exact readsWithin_choice (readsWithin_some _)
    | list item =>
      have hread := (ih item List.mem_cons_self).map DataType.list
      rw [Readable, toJson, Value.depth_ofChoice]
      apply readsWithin_choice
      simpa only [ofChoice?_list (toJson_ne_null item)] using hread
    | set item =>
      have hread := (ih item List.mem_cons_self).map DataType.set
      rw [Readable, toJson, Value.depth_ofChoice]
      apply readsWithin_choice
      simpa only [ofChoice?_set (toJson_ne_null item)] using hread
    | tuple items =>
      have hitems : ReadsWithin (ofJsonList? · (items.map toJson)) _ items := readsWithin_items ih
      rw [Readable, toJson, Value.depth_ofChoice, toJsonList_eq_map, Value.depth]
      exact readsWithin_choice (hitems.enter.map DataType.tuple)
    | map key value =>
      have hitems : ReadsWithin (ofJsonList? · [key.toJson, value.toJson]) _ [key, value] :=
        readsWithin_items ih
      have hmap : ofParameters? [key, value] = some (.map key value) := rfl
      rw [Readable, toJson, Value.depth_ofChoice, Value.depth]
      exact readsWithin_choice (hitems.enter.bind hmap)
    | _ => exact readsWithin_name rfl

/-- Different types have different texts. -/
theorem toJson_injective : Function.Injective toJson := by
  intro t u h
  have ht : ofJson? t.toJson.depth t.toJson = some t := t.readable.eq_some
  have hu : ofJson? u.toJson.depth u.toJson = some u := u.readable.eq_some
  rw [← h] at hu
  exact Option.some.inj (ht.symm.trans hu)

/-! ## Texts -/

theorem stable_widthField {name width : String} (hname : Printable name)
    (hwidth : (Value.ofString width).Stable) :
    (Value.ofChoice name (.ofRecord [("width", .ofString width)])).Stable := by
  have hfield : Printable "width" := by decide
  apply stable_ofChoice hname
  exact stable_ofRecord (List.forall_mem_singleton.mpr ⟨hfield, hwidth⟩)

theorem stable_intFields (signed : Bool) (width : IntWidth) :
    (Value.ofRecord [("signed", .bool signed), ("width", .ofString width.name)]).Stable := by
  have hsigned : Printable "signed" := by decide
  have hwidth : Printable "width" := by decide
  exact stable_ofRecord (List.forall_mem_cons.mpr ⟨⟨hsigned, Value.Stable.bool signed⟩,
    List.forall_mem_singleton.mpr ⟨hwidth, naming_intWidth.stable_name width⟩⟩)

/-- The form of a type holds nothing that is read differently from how it is printed. -/
theorem stable_toJson (t : DataType) : t.toJson.Stable := by
  have hlist : ∀ ts : List DataType, (∀ t ∈ ts, t.toJson.Stable) →
      (Value.list (ts.map toJson)).Stable :=
    fun _ hts => Value.Stable.list (List.forall_mem_map.mpr hts)
  induction t using DataType.induction with
  | step t ih =>
    cases t with
    | int signed width => exact stable_ofChoice (by decide) (stable_intFields signed width)
    | float width => exact stable_widthField (by decide) (naming_floatWidth.stable_name width)
    | complex width => exact stable_widthField (by decide) (naming_complexWidth.stable_name width)
    | bareList | bareSet | bareMap => exact stable_ofChoice (by decide) Value.Stable.null
    | list item | set item => exact stable_ofChoice (by decide) (ih item List.mem_cons_self)
    | tuple items =>
      rw [toJson, toJsonList_eq_map]
      exact stable_ofChoice (by decide) (hlist items ih)
    | map key value => exact stable_ofChoice (by decide) (hlist [key, value] ih)
    | _ => exact stable_ofString (by decide)

/-- The text of a type is read back as the type up to 127 levels of brackets and not
beyond, and is the text of no other type. -/
theorem decode_text (t : DataType) :
    decode ofJson? t.toJson.text = (if t.toJson.depth ≤ 127 then some t else none) ∧
      ∀ u : DataType, u.toJson.text = t.toJson.text ↔ u = t := by
  have htext := fun u : DataType => u.stable_toJson.ofText?_text
  refine ⟨?_, fun u => ⟨fun h => ?_, fun h => h ▸ rfl⟩⟩
  · rw [decode, htext, Option.bind_some]
    exact t.readable maxDepth
  · have hvalue := htext u
    rw [h, htext t] at hvalue
    exact toJson_injective (Option.some.inj hvalue).symm

/-- A map from the empty tuple to lists of null. -/
example : (DataType.map (.tuple []) (.list .null)).toJson.text =
    "\x7b\"Map\":[\x7b\"Tuple\":[]\x7d,\x7b\"List\":\"Null\"\x7d]\x7d" := by
  decide

end TypedSyntax.DataType
