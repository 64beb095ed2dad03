/-!
# Data types

The types that nodes carry, the numeric promotion rule and the acceptance
order on types. Equality of types is structural, and `DataType.key` writes a
type as the text that identifies it.
-/

namespace TypedSyntax

/-- The sizes of integers. -/
inductive IntWidth where
  | w8
  | w16
  | w32
  | w64
  | w128
deriving DecidableEq, Repr

/-- The sizes of floating-point numbers. -/
inductive FloatWidth where
  | w16
  | w32
  | w64
deriving DecidableEq, Repr

/-- The sizes of the two components of a complex number. -/
inductive ComplexWidth where
  | w32
  | w64
deriving DecidableEq, Repr

def IntWidth.bits : IntWidth → Nat
  | .w8 => 8
  | .w16 => 16
  | .w32 => 32
  | .w64 => 64
  | .w128 => 128

def FloatWidth.bits : FloatWidth → Nat
  | .w16 => 16
  | .w32 => 32
  | .w64 => 64

def ComplexWidth.bits : ComplexWidth → Nat
  | .w32 => 32
  | .w64 => 64

/-- A data type. A collection type without parameters (`bareList`, `bareSet`,
`bareMap`) leaves them unspecified, and `any` stands for every type. -/
inductive DataType where
  | boolean
  | int (signed : Bool) (width : IntWidth)
  | float (width : FloatWidth)
  | complex (width : ComplexWidth)
  | date
  | time
  | dateTime
  | timestamp
  | string
  | utf8String
  | utf8Char
  | bareList
  | list (item : DataType)
  | bareSet
  | set (item : DataType)
  | tuple (items : List DataType)
  | bareMap
  | map (key value : DataType)
  | null
  | any
deriving Repr, Inhabited

namespace DataType

mutual

/-- Structural comparison of two types. -/
def same : DataType → DataType → Bool
  | .boolean, .boolean => true
  | .int s w, .int s' w' => s == s' && w == w'
  | .float w, .float w' => w == w'
  | .complex w, .complex w' => w == w'
  | .date, .date => true
  | .time, .time => true
  | .dateTime, .dateTime => true
  | .timestamp, .timestamp => true
  | .string, .string => true
  | .utf8String, .utf8String => true
  | .utf8Char, .utf8Char => true
  | .bareList, .bareList => true
  | .list a, .list b => same a b
  | .bareSet, .bareSet => true
  | .set a, .set b => same a b
  | .tuple as, .tuple bs => sameEach as bs
  | .bareMap, .bareMap => true
  | .map k v, .map k' v' => same k k' && same v v'
  | .null, .null => true
  | .any, .any => true
  | _, _ => false

/-- Componentwise comparison of two lists of types. -/
def sameEach : List DataType → List DataType → Bool
  | [], [] => true
  | a :: as, b :: bs => same a b && sameEach as bs
  | _, _ => false

end

mutual

theorem same_self : (a : DataType) → same a a = true
  | .boolean | .date | .time | .dateTime | .timestamp | .string | .utf8String
  | .utf8Char | .bareList | .bareSet | .bareMap | .null | .any => by simp [same]
  | .int _ _ | .float _ | .complex _ => by simp [same]
  | .list a => by simp [same, same_self a]
  | .set a => by simp [same, same_self a]
  | .tuple as => by simp [same, sameEach_self as]
  | .map k v => by simp [same, same_self k, same_self v]

theorem sameEach_self : (as : List DataType) → sameEach as as = true
  | [] => by simp [sameEach]
  | a :: as => by simp [sameEach, same_self a, sameEach_self as]

end

mutual

theorem eq_of_same : (a b : DataType) → same a b = true → a = b
  | .boolean, b, h | .date, b, h | .time, b, h | .dateTime, b, h | .timestamp, b, h
  | .string, b, h | .utf8String, b, h | .utf8Char, b, h | .bareList, b, h
  | .bareSet, b, h | .bareMap, b, h | .null, b, h | .any, b, h => by
    cases b <;> simp_all [same]
  | .int _ _, b, h | .float _, b, h | .complex _, b, h => by
    cases b <;> simp_all [same]
  | .list a, b, h => by
    cases b <;> simp only [same, Bool.false_eq_true] at h
    rw [eq_of_same a _ h]
  | .set a, b, h => by
    cases b <;> simp only [same, Bool.false_eq_true] at h
    rw [eq_of_same a _ h]
  | .tuple as, b, h => by
    cases b <;> simp only [same, Bool.false_eq_true] at h
    rw [eq_of_sameEach as _ h]
  | .map k v, b, h => by
    cases b <;> simp only [same, Bool.false_eq_true, Bool.and_eq_true] at h
    rw [eq_of_same k _ h.1, eq_of_same v _ h.2]

theorem eq_of_sameEach : (as bs : List DataType) → sameEach as bs = true → as = bs
  | [], bs, h => by cases bs <;> simp_all [sameEach]
  | a :: as, bs, h => by
    cases bs <;> simp only [sameEach, Bool.false_eq_true, Bool.and_eq_true] at h
    rw [eq_of_same a _ h.1, eq_of_sameEach as _ h.2]

end

theorem same_iff {a b : DataType} : same a b = true ↔ a = b :=
  ⟨eq_of_same a b, fun h => h ▸ same_self a⟩

instance : DecidableEq DataType := fun _ _ => decidable_of_iff _ same_iff

/-- The size of a number in bytes, a complex number counting both components.
Only numeric types have one. -/
def byteWidth? : DataType → Option Nat
  | .int _ width => some (width.bits / 8)
  | .float width => some (width.bits / 8)
  | .complex width => some (width.bits / 4)
  | _ => none

def isNumeric (t : DataType) : Bool :=
  t.byteWidth?.isSome

def isInteger : DataType → Bool
  | .int .. => true
  | _ => false

def isBoolean : DataType → Bool
  | .boolean => true
  | _ => false

def isString : DataType → Bool
  | .string | .utf8String | .utf8Char => true
  | _ => false

def isTemporal : DataType → Bool
  | .date | .time | .dateTime | .timestamp => true
  | _ => false

def isCollection : DataType → Bool
  | .bareList | .list _ | .bareSet | .set _ | .tuple _ | .bareMap | .map .. => true
  | _ => false

def isAny : DataType → Bool
  | .any => true
  | _ => false

mutual

/-- The text that identifies a type. -/
def key : DataType → String
  | .boolean => "Boolean"
  | .int true width => "Int" ++ toString width.bits
  | .int false width => "UInt" ++ toString width.bits
  | .float width => "Float" ++ toString width.bits
  | .complex width => "Complex" ++ toString width.bits
  | .date => "Date"
  | .time => "Time"
  | .dateTime => "DateTime"
  | .timestamp => "Timestamp"
  | .string => "String"
  | .utf8String => "UTF8String"
  | .utf8Char => "UTF8Char"
  | .bareList => "List"
  | .list item => "List[" ++ item.key ++ "]"
  | .bareSet => "Set"
  | .set item => "Set[" ++ item.key ++ "]"
  | .tuple [] => "Tuple"
  | .tuple (item :: items) => "Tuple[" ++ item.key ++ keyTail items ++ "]"
  | .bareMap => "Map"
  | .map k v => "Map[" ++ k.key ++ ", " ++ v.key ++ "]"
  | .null => "Null"
  | .any => "Any"

/-- The keys of further tuple items, each after a comma. -/
def keyTail : List DataType → String
  | [] => ""
  | item :: items => ", " ++ item.key ++ keyTail items

end

instance : ToString DataType := ⟨key⟩

mutual

/-- Whether a value of the second type may initialise a binding of the first.
Numbers widen without loss, an unspecified parameter agrees with every type,
and `any` agrees with everything on either side. -/
def accepts : DataType → DataType → Bool
  | .any, _ => true
  | .int signed width, value =>
    match value with
    | .any => true
    | .int signed' width' => signed == signed' && decide (width'.bits ≤ width.bits)
    | _ => false
  | .float width, value =>
    match value with
    | .any | .int .. => true
    | .float width' => decide (width'.bits ≤ width.bits)
    | _ => false
  | .complex width, value =>
    match value with
    | .any | .int .. | .float _ => true
    | .complex width' => decide (width'.bits ≤ width.bits)
    | _ => false
  | .bareList, value =>
    match value with
    | .any | .bareList | .list _ => true
    | _ => false
  | .list item, value =>
    match value with
    | .any | .bareList => true
    | .list item' => accepts item item'
    | _ => false
  | .bareSet, value =>
    match value with
    | .any | .bareSet | .set _ => true
    | _ => false
  | .set item, value =>
    match value with
    | .any | .bareSet => true
    | .set item' => accepts item item'
    | _ => false
  | .tuple items, value =>
    match value with
    | .any => true
    | .tuple items' => items.isEmpty || acceptsEach items items'
    | _ => false
  | .bareMap, value =>
    match value with
    | .any | .bareMap | .map .. => true
    | _ => false
  | .map key item, value =>
    match value with
    | .any | .bareMap => true
    | .map key' item' => accepts key key' && accepts item item'
    | _ => false
  | scalar, value => value.isAny || scalar == value

/-- Componentwise acceptance of two lists of equal length. -/
def acceptsEach : List DataType → List DataType → Bool
  | [], [] => true
  | a :: as, b :: bs => accepts a b && acceptsEach as bs
  | _, _ => false

end

/-- The type that all the types of a list agree on, `any` when they differ. -/
def common? : List DataType → Option DataType
  | [] => none
  | t :: ts => some (if ts.all (· == t) then t else .any)

end DataType

end TypedSyntax
