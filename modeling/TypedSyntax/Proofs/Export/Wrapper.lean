import Mathlib.Data.List.Basic
import TypedSyntax.Datum

/-!
# Wrappers

A wrapper is a map of one entry that holds content and metadata under a key.
What a datum is without its metadata, and which wrappers it has.
-/

namespace TypedSyntax

/-- A key with content and metadata. -/
structure Wrapper where
  key : String
  content : Datum
  metadata : Datum

def Wrapper.toDatum (w : Wrapper) : Datum :=
  .single w.key (.map [("content", w.content), ("metadata", w.metadata)])

/-- The part of a key before its last number sign. A key without a number sign
stays as it is. -/
def cutKey (key : String) : String :=
  match key.toList.reverse.dropWhile (· != '#') with
  | [] => key
  | _ :: front => String.ofList front.reverse

/-- A key from a tag and a number. -/
def numberedKey (tag : String) (n : Nat) : String :=
  tag ++ "#" ++ toString n

/-- No digit of a number is a number sign. -/
theorem ne_sign_of_mem_digits (n : Nat) : ∀ c ∈ (toString n).toList.reverse, (c != '#') = true := by
  intro c hc
  rw [List.mem_reverse, Nat.toString_eq_repr, Nat.toList_repr] at hc
  have hdigit := Nat.isDigit_of_mem_toDigits (by decide) (by decide) hc
  apply bne_iff_ne.mpr
  rintro rfl
  cases hdigit

theorem reverse_numberedKey (tag : String) (n : Nat) :
    (numberedKey tag n).toList.reverse =
      (toString n).toList.reverse ++ '#' :: tag.toList.reverse := by
  simp [numberedKey]

/-- A tag is found again before the last mark of its key. -/
theorem cutKey_numberedKey (tag : String) (n : Nat) : cutKey (numberedKey tag n) = tag := by
  rw [cutKey, reverse_numberedKey, List.dropWhile_append_of_pos (ne_sign_of_mem_digits n)]
  change String.ofList tag.toList.reverse.reverse = tag
  rw [List.reverse_reverse, String.ofList_toList]

/-- The digits of a number tell the number. -/
theorem eq_of_repr_eq {m n : Nat} (h : m.repr = n.repr) : m = n := by
  have hread : ∀ n : Nat, Nat.ofDigitChars 10 n.repr.toList 0 = n := by
    intro n
    rw [Nat.toList_repr]
    exact Nat.ofDigitChars_toDigits (by decide) (by decide)
  calc
    m = Nat.ofDigitChars 10 m.repr.toList 0 := (hread m).symm
    _ = Nat.ofDigitChars 10 n.repr.toList 0 := by rw [h]
    _ = n := hread n

/-- A key tells its number. -/
theorem eq_of_numberedKey_eq {tag tag' : String} {m n : Nat}
    (h : numberedKey tag m = numberedKey tag' n) : m = n := by
  have hnumber : ∀ (tag : String) (n : Nat),
      (numberedKey tag n).toList.reverse.takeWhile (· != '#') = (toString n).toList.reverse := by
    intro tag n
    rw [reverse_numberedKey, List.takeWhile_append_of_pos (ne_sign_of_mem_digits n),
      List.takeWhile_cons_of_neg (by decide), List.append_nil]
  apply eq_of_repr_eq
  apply String.toList_inj.mp
  apply List.reverse_injective
  exact (hnumber tag m).symm.trans (h ▸ hnumber tag' n)

namespace Datum

mutual

/-- The datum without metadata: every wrapper becomes a map from its cut key
to its content. -/
def erase : Datum → Datum
  | .map [(key, .map [("content", content), ("metadata", _)])] =>
    .single (cutKey key) (erase content)
  | .map entries => .map (eraseEntries entries)
  | .list items => .list (eraseItems items)
  | .bool b => .bool b
  | .int i => .int i
  | .float x => .float x
  | .text s => .text s

def eraseItems : List Datum → List Datum
  | [] => []
  | item :: items => erase item :: eraseItems items

def eraseEntries : List (String × Datum) → List (String × Datum)
  | [] => []
  | (key, value) :: entries => (key, erase value) :: eraseEntries entries

end

mutual

/-- The wrappers in a datum, in the order in which they begin. -/
def wrappers : Datum → List Wrapper
  | .map [(key, .map [("content", content), ("metadata", metadata)])] =>
    ⟨key, content, metadata⟩ :: (wrappers content ++ wrappers metadata)
  | .map entries => wrappersOfEntries entries
  | .list items => wrappersOfItems items
  | .bool _ => []
  | .int _ => []
  | .float _ => []
  | .text _ => []

def wrappersOfItems : List Datum → List Wrapper
  | [] => []
  | item :: items => wrappers item ++ wrappersOfItems items

def wrappersOfEntries : List (String × Datum) → List Wrapper
  | [] => []
  | (_, value) :: entries => wrappers value ++ wrappersOfEntries entries

end

theorem eraseEntries_eq (entries : List (String × Datum)) :
    eraseEntries entries = entries.map fun e => (e.1, e.2.erase) := by
  induction entries with
  | nil => rfl
  | cons e entries ih => exact congrArg ((e.1, e.2.erase) :: ·) ih

theorem wrappersOfEntries_eq (entries : List (String × Datum)) :
    wrappersOfEntries entries = entries.flatMap fun e => e.2.wrappers := by
  induction entries with
  | nil => rfl
  | cons e entries ih => exact congrArg (e.2.wrappers ++ ·) ih

/-- The items of a list are erased one by one. -/
@[simp]
theorem erase_list (items : List Datum) : (Datum.list items).erase = .list (items.map erase) := by
  have hitems : eraseItems items = items.map erase := by
    induction items with
    | nil => rfl
    | cons item items ih => exact congrArg (item.erase :: ·) ih
  exact congrArg Datum.list hitems

/-- The wrappers of a list are those of its items. -/
@[simp]
theorem wrappers_list (items : List Datum) :
    (Datum.list items).wrappers = items.flatMap wrappers := by
  have hitems : wrappersOfItems items = items.flatMap wrappers := by
    induction items with
    | nil => rfl
    | cons item items ih => exact congrArg (item.wrappers ++ ·) ih
  exact hitems

@[simp] theorem erase_empty : Datum.empty.erase = .empty := rfl

@[simp] theorem wrappers_empty : Datum.empty.wrappers = [] := rfl

@[simp] theorem erase_text (s : String) : (Datum.text s).erase = .text s := rfl

@[simp] theorem wrappers_text (s : String) : (Datum.text s).wrappers = [] := rfl

/-- A map of several entries is no wrapper. -/
@[simp]
theorem erase_map_cons_cons (e e' : String × Datum) (entries : List (String × Datum)) :
    (Datum.map (e :: e' :: entries)).erase =
      .map ((e :: e' :: entries).map fun e => (e.1, e.2.erase)) := by
  rw [erase, eraseEntries_eq]
  nofun

/-- The wrappers of several entries are those of their values. -/
@[simp]
theorem wrappers_map_cons_cons (e e' : String × Datum) (entries : List (String × Datum)) :
    (Datum.map (e :: e' :: entries)).wrappers =
      (e :: e' :: entries).flatMap fun e => e.2.wrappers := by
  rw [wrappers, wrappersOfEntries_eq]
  nofun

/-- A wrapper is erased to its content under its tag. -/
theorem erase_wrapper (w : Wrapper) :
    w.toDatum.erase = .single (cutKey w.key) w.content.erase := rfl

/-- A wrapper comes before those inside of it. -/
theorem wrappers_wrapper (w : Wrapper) :
    w.toDatum.wrappers = w :: (w.content.wrappers ++ w.metadata.wrappers) := rfl

end Datum

end TypedSyntax
