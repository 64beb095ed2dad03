import TypedSyntax.Json.Printer
import TypedSyntax.Json.Record
import TypedSyntax.Proofs.Json.Reading
import TypedSyntax.Proofs.Json.Writing

/-!
# Printed values

A printed value is read back, unless it holds control characters, which are printed as
units, or something that is no number.
-/

namespace TypedSyntax.Json

/-- A piece is printed in a way that is read back as the piece. -/
def Piece.Stable : Piece → Prop
  | .char c => Piece.ofChar c = .char c
  | .unit code => code < 0x10000

theorem Piece.stable_char {c : Char} (h : 0x20 ≤ c.toNat) : (Piece.char c).Stable :=
  if_neg fun hcontrol => absurd hcontrol.1 (by omega)

/-- A value is printed in a way that is read back as the value. -/
inductive Value.Stable : Value → Prop
  | null : Stable .null
  | bool (b : Bool) : Stable (.bool b)
  | number {n} : Numeral n n.print → Stable (.number n)
  | string {ps} : (∀ p ∈ ps, p.Stable) → Stable (.string ps)
  | list {vs} : (∀ v ∈ vs, Stable v) → Stable (.list vs)
  | object {es} : (∀ e ∈ es, ∀ p ∈ e.1, p.Stable) → (∀ e ∈ es, Stable e.2) → Stable (.object es)

/-- A printed piece goes in front of the body of a string. -/
theorem Body.print_append {p : Piece} (hp : p.Stable) {ps : List Piece} {cs : List Char}
    (h : Body ps cs) : Body (p :: ps) (p.print ++ cs) := by
  cases p with
  | char c =>
      have hescape := h.escape_append c
      rwa [hp] at hescape
  | unit code =>
      have hcode : code < 0x10000 := hp
      have hvalue : Text.ofDigits 16 [code / 4096, code / 256 % 16, code / 16 % 16, code % 16] =
          code := by
        simp only [Text.ofDigits, List.foldl_cons, List.foldl_nil]
        omega
      have hunit := Body.unit (Text.hexValue?_lowerHex (n := code / 4096) (by omega))
        (Text.hexValue?_lowerHex (n := code / 256 % 16) (by omega))
        (Text.hexValue?_lowerHex (n := code / 16 % 16) (by omega))
        (Text.hexValue?_lowerHex (n := code % 16) (by omega)) h
      rwa [hvalue] at hunit

theorem body_flatMap_print {ps : List Piece} (h : ∀ p ∈ ps, p.Stable) :
    Body ps (ps.flatMap Piece.print) := by
  induction ps with
  | nil => exact Body.nil
  | cons p ps ih =>
      obtain ⟨hp, hps⟩ := List.forall_mem_cons.mp h
      exact (ih hps).print_append hp

/-- Printed items are spelled if each of them is. -/
theorem spelled_printItems {v : Value} {vs : List Value}
    (h : ∀ w ∈ v :: vs, Spelled (.value w) w.print) :
    Spelled (.items (v :: vs)) (v.print ++ Value.printItems vs) := by
  induction vs generalizing v with
  | nil => exact Spelled.lastItem (h v List.mem_cons_self)
  | cons w vs ih =>
      obtain ⟨hv, hvs⟩ := List.forall_mem_cons.mp h
      exact Spelled.moreItems hv (ih hvs)

/-- Printed entries are spelled if each value is and all keys are stable. -/
theorem spelled_printEntries {e : List Piece × Value} {es : List (List Piece × Value)}
    (hkeys : ∀ e' ∈ e :: es, ∀ p ∈ e'.1, p.Stable)
    (h : ∀ e' ∈ e :: es, Spelled (.value e'.2) e'.2.print) :
    Spelled (.entries (e :: es))
      (printString e.1 ++ ':' :: (e.2.print ++ Value.printEntries es)) := by
  have hblank : Blank [] := List.forall_mem_nil _
  induction es generalizing e with
  | nil =>
      have hkey := body_flatMap_print (hkeys e List.mem_cons_self)
      have hlast := Spelled.lastEntry hblank hkey hblank (h e List.mem_cons_self)
      simpa [printString, Value.printEntries] using hlast
  | cons e' es ih =>
      obtain ⟨hkey, hkeys⟩ := List.forall_mem_cons.mp hkeys
      obtain ⟨he, hes⟩ := List.forall_mem_cons.mp h
      have hmore := Spelled.moreEntries hblank (body_flatMap_print hkey) hblank he (ih hkeys hes)
      simpa [printString, Value.printEntries] using hmore

/-- A stable value is spelled by its text. -/
theorem Value.Stable.spelled {v : Value} (h : v.Stable) : Spelled (.value v) v.print := by
  have hblank : Blank [] := List.forall_mem_nil _
  induction h with
  | null => exact Spelled.null
  | bool b =>
      cases b with
      | false => exact Spelled.false
      | true => exact Spelled.true
  | number hn => exact Spelled.number hn
  | string hps => exact Spelled.string (body_flatMap_print hps)
  | @list vs _ ih =>
      cases vs with
      | nil => exact Spelled.emptyList hblank
      | cons v vs => exact Spelled.list (spelled_printItems ih)
  | @object es hkeys _ ih =>
      cases es with
      | nil => exact Spelled.emptyObject hblank
      | cons e es =>
          have hobject := Spelled.object (spelled_printEntries hkeys ih)
          simpa [Value.print] using hobject

/-- A stable value is read back from its text. -/
theorem Value.Stable.ofText?_text {v : Value} (h : v.Stable) : Value.ofText? v.text = some v := by
  apply Spelled.ofText?_eq
  rw [Value.text, String.toList_ofList]
  exact h.spelled

/-! ## Nesting -/

namespace Value

mutual

/-- The greatest number of brackets around a place in a value. -/
def depth : Value → Nat
  | .list items => depthItems items + 1
  | .object entries => depthEntries entries + 1
  | _ => 0

def depthItems : List Value → Nat
  | [] => 0
  | item :: items => max item.depth (depthItems items)

def depthEntries : List (List Piece × Value) → Nat
  | [] => 0
  | (_, value) :: entries => max value.depth (depthEntries entries)

end

@[simp]
theorem depth_ofString (s : String) : (ofString s).depth = 0 := by
  simp [ofString, depth]

@[simp]
theorem depth_ofChoice (name : String) (content : Value) :
    (ofChoice name content).depth = content.depth + 1 := by
  simp [ofChoice, depth, depthEntries]

end Value

/-- The reader gives the result if `n` levels remain, and nothing if fewer do. -/
def ReadsWithin {α : Type} (read : (depth : Nat) → Option α) (n : Nat) (a : α) : Prop :=
  ∀ depth, read depth = if n ≤ depth then some a else none

section

variable {α β : Type} {read : Nat → Option α} {n : Nat} {a : α}

theorem ReadsWithin.eq_some (h : ReadsWithin read n a) : read n = some a :=
  (h n).trans (if_pos (Nat.le_refl n))

theorem readsWithin_some (a : α) : ReadsWithin (fun _ => some a) 0 a :=
  fun depth => (if_pos (Nat.zero_le depth)).symm

/-- A bracket takes one level. -/
theorem ReadsWithin.enter (h : ReadsWithin read n a) :
    ReadsWithin (fun depth => (enter? depth).bind read) (n + 1) a := by
  intro depth
  cases depth with
  | zero => rfl
  | succ depth =>
      dsimp only
      rw [enter?, Option.bind_some, h depth]
      simp only [Nat.succ_le_succ_iff]

/-- A reader that goes on needs no more depth. -/
theorem ReadsWithin.bind {f : α → Option β} {b : β} (h : ReadsWithin read n a) (hf : f a = some b) :
    ReadsWithin (fun depth => (read depth).bind f) n b := by
  intro depth
  dsimp only
  rw [h depth]
  split
  · exact hf
  · rfl

theorem ReadsWithin.map (h : ReadsWithin read n a) (f : α → β) :
    ReadsWithin (fun depth => (read depth).map f) n (f a) := by
  have hf : (some ∘ f) a = some (f a) := rfl
  simpa only [Option.map_eq_bind] using h.bind hf

end

/-! ## Names, choices and records -/

theorem decode?_map_char (cs : List Char) : decode? (cs.map .char) = some cs := by
  induction cs with
  | nil => rfl
  | cons c cs ih => rw [List.map_cons, decode?, ih, Option.map_some]

@[simp]
theorem stringOf?_map_char (s : String) : stringOf? (s.toList.map .char) = some s := by
  rw [stringOf?, decode?_map_char, Option.map_some, String.ofList_toList]

/-- A text without control characters. -/
def Printable (s : String) : Prop :=
  s.toList.all (0x20 ≤ ·.toNat) = true

instance (s : String) : Decidable (Printable s) :=
  inferInstanceAs (Decidable (_ = true))

theorem Printable.stable {s : String} (h : Printable s) :
    ∀ p ∈ s.toList.map Piece.char, p.Stable := by
  intro p hp
  obtain ⟨c, hc, rfl⟩ := List.mem_map.mp hp
  exact Piece.stable_char (of_decide_eq_true (List.all_eq_true.mp h c hc))

theorem stable_ofString {s : String} (h : Printable s) : (Value.ofString s).Stable :=
  Value.Stable.string h.stable

/-- A record of stable fields is stable. -/
theorem stable_ofRecord {fields : List (String × Value)}
    (h : ∀ field ∈ fields, Printable field.1 ∧ field.2.Stable) :
    (Value.ofRecord fields).Stable := by
  apply Value.Stable.object
  · intro e he
    obtain ⟨field, hfield, rfl⟩ := List.mem_map.mp he
    exact (h field hfield).1.stable
  · intro e he
    obtain ⟨field, hfield, rfl⟩ := List.mem_map.mp he
    exact (h field hfield).2

/-- A choice with stable content is stable. -/
theorem stable_ofChoice {name : String} {content : Value} (hname : Printable name)
    (h : content.Stable) : (Value.ofChoice name content).Stable := by
  have hfield : ∀ field ∈ [(name, content)], Printable field.1 ∧ field.2.Stable :=
    List.forall_mem_singleton.mpr ⟨hname, h⟩
  exact stable_ofRecord hfield

/-- The name of a choice without contents is looked up. -/
theorem oneOf?_ofString {α : Type} (all : List α) (nameOf : α → String) (depth : Nat) (s : String) :
    oneOf? all nameOf depth (.ofString s) = all.find? (nameOf · == s) := by
  rw [oneOf?, Value.ofString, name?, stringOf?_map_char, Option.bind_some]

theorem mapM_map_eq_some {α β γ : Type} {f : β → Option γ} {g : α → β} {g' : α → γ} {xs : List α}
    (h : ∀ x ∈ xs, f (g x) = some (g' x)) : (xs.map g).mapM f = some (xs.map g') := by
  induction xs with
  | nil => rfl
  | cons x xs ih =>
      obtain ⟨hx, hxs⟩ := List.forall_mem_cons.mp h
      simp [hx, ih hxs]

theorem filter_key_eq_singleton {fields : List (String × Value)} (h : (fields.map Prod.fst).Nodup)
    {field : String × Value} (hfield : field ∈ fields) :
    fields.filter (·.1 == field.1) = [field] := by
  induction fields with
  | nil => cases hfield
  | cons first fields ih =>
      obtain ⟨hfirst, hfields⟩ := List.nodup_cons.mp h
      rcases List.mem_cons.mp hfield with rfl | hlater
      · have hother : fields.filter (·.1 == field.1) = [] := by
          refine List.filter_eq_nil_iff.mpr fun other hmem heq => hfirst ?_
          exact List.mem_map.mpr ⟨other, hmem, eq_of_beq heq⟩
        simp [hother]
      · have hne : first.1 ≠ field.1 := fun heq => hfirst (heq ▸ List.mem_map_of_mem hlater)
        simp [hne, ih hfields hlater]

/-- All fields of a record are found by their names. -/
theorem fields?_ofRecord {fields : List (String × Value)} (h : (fields.map Prod.fst).Nodup) :
    fields? (fields.map Prod.fst) (.ofRecord fields) =
      some (fields.map fun field => some field.2) := by
  rw [Value.ofRecord, fields?]
  refine Option.bind_eq_some_iff.mpr ⟨fields, ?keyed, ?found⟩
  case keyed =>
    refine (mapM_map_eq_some fun field _ => ?_).trans (congrArg some (List.map_id fields))
    simp
  case found =>
    refine mapM_map_eq_some fun field hfield => ?_
    rw [filter_key_eq_singleton h hfield]

end TypedSyntax.Json
