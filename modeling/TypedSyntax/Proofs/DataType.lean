import Mathlib.Logic.Function.Basic
import TypedSyntax.DataType

/-!
# Keys of types

Different types have different keys. A key is a word, and after it the keys of
the type's arguments in brackets, so that the end of a key can be told from
whatever follows it in a longer key.
-/

namespace TypedSyntax

/-- Texts that are split where a run of some characters ends have the same
parts. -/
theorem eq_of_append_eq {p : Char → Bool} {cs cs' rest rest' : List Char}
    (hcs : ∀ c ∈ cs, p c = true) (hcs' : ∀ c ∈ cs', p c = true) (hrest : rest.takeWhile p = [])
    (hrest' : rest'.takeWhile p = []) (h : cs ++ rest = cs' ++ rest') :
    cs = cs' ∧ rest = rest' := by
  have htake := congrArg (List.takeWhile p) h
  rw [List.takeWhile_append_of_pos hcs, List.takeWhile_append_of_pos hcs', hrest, hrest',
    List.append_nil, List.append_nil] at htake
  subst htake
  exact ⟨rfl, List.append_cancel_left h⟩

namespace DataType

/-- The types that a type is made of. -/
def arguments : DataType → List DataType
  | .list item | .set item => [item]
  | .tuple items => items
  | .map key value => [key, value]
  | _ => []

/-- The word at the beginning of a key. -/
def word : DataType → String
  | .list _ => "List"
  | .set _ => "Set"
  | .tuple _ => "Tuple"
  | .map .. => "Map"
  | other => other.key

/-- The type with a word and arguments. -/
def ofWord? (word : String) (arguments : List DataType) : Option DataType :=
  match word, arguments with
  | "Boolean", [] => some .boolean
  | "Int8", [] => some (.int true .w8)
  | "Int16", [] => some (.int true .w16)
  | "Int32", [] => some (.int true .w32)
  | "Int64", [] => some (.int true .w64)
  | "Int128", [] => some (.int true .w128)
  | "UInt8", [] => some (.int false .w8)
  | "UInt16", [] => some (.int false .w16)
  | "UInt32", [] => some (.int false .w32)
  | "UInt64", [] => some (.int false .w64)
  | "UInt128", [] => some (.int false .w128)
  | "Float16", [] => some (.float .w16)
  | "Float32", [] => some (.float .w32)
  | "Float64", [] => some (.float .w64)
  | "Complex32", [] => some (.complex .w32)
  | "Complex64", [] => some (.complex .w64)
  | "Date", [] => some .date
  | "Time", [] => some .time
  | "DateTime", [] => some .dateTime
  | "Timestamp", [] => some .timestamp
  | "String", [] => some .string
  | "UTF8String", [] => some .utf8String
  | "UTF8Char", [] => some .utf8Char
  | "List", [] => some .bareList
  | "List", [item] => some (.list item)
  | "Set", [] => some .bareSet
  | "Set", [item] => some (.set item)
  | "Tuple", items => some (.tuple items)
  | "Map", [] => some .bareMap
  | "Map", [key, value] => some (.map key value)
  | "Null", [] => some .null
  | "Any", [] => some .any
  | _, _ => none

/-- A type is given by its word and its arguments. -/
theorem ofWord?_word (t : DataType) : ofWord? t.word t.arguments = some t := by
  cases t with
  | int signed width => cases signed <;> cases width <;> rfl
  | float width | complex width => cases width <;> rfl
  | _ => rfl

theorem isAlphanum_of_mem_word {t : DataType} : ∀ c ∈ t.word.toList, c.isAlphanum = true := by
  have hall : t.word.toList.all Char.isAlphanum = true := by
    cases t with
    | int signed width => cases signed <;> cases width <;> decide
    | float width | complex width => cases width <;> decide
    | list | set | tuple | map =>
      simp only [word]
      decide
    | _ => decide
  exact List.all_eq_true.mp hall

/-- Induction over types: a type inherits a property from its arguments. -/
@[elab_as_elim]
theorem induction {motive : DataType → Prop}
    (step : ∀ t, (∀ a ∈ t.arguments, motive a) → motive t) (t : DataType) : motive t := by
  apply DataType.rec (motive_1 := motive) (motive_2 := fun ts => ∀ t ∈ ts, motive t)
  case list | set => exact fun _ ih => step _ (by simpa [arguments] using ih)
  case tuple => exact fun _ ih => step _ ih
  case map => exact fun _ _ hk hv => step _ (by simp [arguments, hk, hv])
  case nil => exact List.forall_mem_nil _
  case cons => exact fun _ _ ht hts => List.forall_mem_cons.mpr ⟨ht, hts⟩
  all_goals intros; exact step _ (List.forall_mem_nil _)

/-- The keys of arguments in brackets. -/
def bracketKeys : List DataType → String
  | [] => ""
  | t :: ts => "[" ++ t.key ++ keyTail ts ++ "]"

theorem key_eq (t : DataType) : t.key = t.word ++ bracketKeys t.arguments := by
  apply String.toList_inj.mp
  cases t with
  | tuple items => cases items <;> simp [key, word, arguments, bracketKeys]
  | list | set | map => simp [key, keyTail, word, arguments, bracketKeys]
  | _ => simp [word, arguments, bracketKeys]

/-- What may follow a key: nothing, a comma, or a closing bracket. -/
inductive Closes : List Char → Prop
  | nil : Closes []
  | comma {cs} : Closes (',' :: cs)
  | bracket {cs} : Closes (']' :: cs)

theorem Closes.takeWhile_eq {rest : List Char} (h : Closes rest) :
    rest.takeWhile Char.isAlphanum = [] := by
  cases h <;> rfl

theorem closes_keyTail (ts : List DataType) (rest : List Char) :
    Closes ((keyTail ts).toList ++ ']' :: rest) := by
  cases ts with
  | nil => exact Closes.bracket
  | cons t ts =>
      simp only [keyTail, String.toList_append, List.append_assoc]
      exact Closes.comma

/-- A key tells its type and where it ends. -/
def Legible (t : DataType) : Prop :=
  ∀ {t' rest rest'}, Closes rest → Closes rest' → t.key.toList ++ rest = t'.key.toList ++ rest' →
    t = t' ∧ rest = rest'

theorem keyTail_append_inj {ts ts' : List DataType} {rest rest' : List Char}
    (hts : ∀ t ∈ ts, Legible t)
    (h : (keyTail ts).toList ++ ']' :: rest = (keyTail ts').toList ++ ']' :: rest') :
    ts = ts' ∧ rest = rest' := by
  induction ts generalizing ts' with
  | nil =>
      cases ts' with
      | nil => exact ⟨rfl, (List.cons.inj h).2⟩
      | cons t' ts' => simp [keyTail] at h
  | cons t ts ih =>
      cases ts' with
      | nil => simp [keyTail] at h
      | cons t' ts' =>
          obtain ⟨ht, hts⟩ := List.forall_mem_cons.mp hts
          simp only [keyTail, String.toList_append, List.append_assoc] at h
          obtain ⟨rfl, htail⟩ :=
            ht (closes_keyTail ts rest) (closes_keyTail ts' rest') (List.append_cancel_left h)
          obtain ⟨rfl, hrest⟩ := ih hts htail
          exact ⟨rfl, hrest⟩

theorem bracketKeys_append_inj {ts ts' : List DataType} {rest rest' : List Char}
    (hts : ∀ t ∈ ts, Legible t) (hrest : Closes rest) (hrest' : Closes rest')
    (h : (bracketKeys ts).toList ++ rest = (bracketKeys ts').toList ++ rest') :
    ts = ts' ∧ rest = rest' := by
  cases ts with
  | nil =>
      cases ts' with
      | nil => exact ⟨rfl, h⟩
      | cons t' ts' =>
          simp only [bracketKeys, String.toList_append, List.append_assoc] at h
          cases hrest <;> cases h
  | cons t ts =>
      cases ts' with
      | nil =>
          simp only [bracketKeys, String.toList_append, List.append_assoc] at h
          cases hrest' <;> cases h
      | cons t' ts' =>
          obtain ⟨ht, hts⟩ := List.forall_mem_cons.mp hts
          simp only [bracketKeys, String.toList_append, List.append_assoc] at h
          obtain ⟨rfl, htail⟩ :=
            ht (closes_keyTail ts rest) (closes_keyTail ts' rest') (List.append_cancel_left h)
          obtain ⟨rfl, hrest⟩ := keyTail_append_inj hts htail
          exact ⟨rfl, hrest⟩

theorem legible (t : DataType) : Legible t := by
  induction t using induction with
  | step t ih =>
    intro t' rest rest' hrest hrest' h
    have hstop : ∀ (ts : List DataType) {cs : List Char}, Closes cs →
        ((bracketKeys ts).toList ++ cs).takeWhile Char.isAlphanum = [] := by
      intro ts cs hcs
      cases ts with
      | nil => exact hcs.takeWhile_eq
      | cons => simp [bracketKeys, show '['.isAlphanum = false from rfl]
    rw [key_eq, key_eq, String.toList_append, String.toList_append, List.append_assoc,
      List.append_assoc] at h
    obtain ⟨hword, h⟩ := eq_of_append_eq isAlphanum_of_mem_word isAlphanum_of_mem_word
      (hstop _ hrest) (hstop _ hrest') h
    obtain ⟨harguments, hrest⟩ := bracketKeys_append_inj ih hrest hrest' h
    refine ⟨?_, hrest⟩
    apply Option.some.inj
    rw [← ofWord?_word t, ← ofWord?_word t', harguments, String.toList_inj.mp hword]

/-- Different types have different keys. -/
theorem key_injective : Function.Injective key := by
  intro t t' h
  exact (legible t Closes.nil Closes.nil (congrArg (·.toList ++ []) h)).1

/-- Comparing the keys of two types compares the types. -/
theorem key_beq_key (a b : DataType) : (a.key == b.key) = same a b := by
  rw [Bool.eq_iff_iff, beq_iff_eq, same_iff]
  exact key_injective.eq_iff

theorem notMem_keyTail {c : Char} {ts : List DataType} (hc : c ∉ [',', ' '])
    (hts : ∀ t ∈ ts, c ∉ t.key.toList) : c ∉ (keyTail ts).toList := by
  induction ts with
  | nil => exact List.not_mem_nil
  | cons t ts ih =>
      obtain ⟨ht, hts⟩ := List.forall_mem_cons.mp hts
      simp only [keyTail, String.toList_append, List.mem_append, not_or]
      exact ⟨⟨hc, ht⟩, ih hts⟩

/-- No key has a colon. -/
theorem colon_notMem_key (t : DataType) : ':' ∉ t.key.toList := by
  induction t using induction with
  | step t ih =>
    have hword : ':' ∉ t.word.toList := fun h => by cases isAlphanum_of_mem_word ':' h
    rw [key_eq, String.toList_append, List.mem_append, not_or]
    refine ⟨hword, ?_⟩
    cases ha : t.arguments with
    | nil => exact List.not_mem_nil
    | cons a as =>
        rw [ha] at ih
        obtain ⟨ha, has⟩ := List.forall_mem_cons.mp ih
        simp only [bracketKeys, String.toList_append, List.mem_append, not_or]
        exact ⟨⟨⟨by decide, ha⟩, notMem_keyTail (by decide) has⟩, by decide⟩

end DataType

end TypedSyntax
