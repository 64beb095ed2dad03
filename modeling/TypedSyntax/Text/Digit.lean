/-!
# Digits

The values of digit characters and the characters of digit values.
-/

namespace TypedSyntax.Text

/-- The value of a decimal digit. -/
def decimalValue (c : Char) : Nat :=
  c.toNat - '0'.toNat

/-- The value of a hexadecimal digit of either case. -/
def hexValue? (c : Char) : Option Nat :=
  if c.isDigit then some (decimalValue c)
  else if 'a' ≤ c ∧ c ≤ 'f' then some (c.toNat - 'a'.toNat + 10)
  else if 'A' ≤ c ∧ c ≤ 'F' then some (c.toNat - 'A'.toNat + 10)
  else none

/-- The hexadecimal digit of a value below 16, in lower case. -/
def lowerHex (n : Nat) : Char :=
  if n < 10 then Char.ofNat ('0'.toNat + n) else Char.ofNat ('a'.toNat + (n - 10))

/-- The hexadecimal digit of a value below 16, in upper case. -/
def upperHex (n : Nat) : Char :=
  if n < 10 then Char.ofNat ('0'.toNat + n) else Char.ofNat ('A'.toNat + (n - 10))

theorem toNat_of_isDigit {c : Char} (h : c.isDigit = true) :
    '0'.toNat ≤ c.toNat ∧ c.toNat ≤ '9'.toNat := by
  rw [Char.isDigit, Bool.and_eq_true, decide_eq_true_eq, decide_eq_true_eq] at h
  exact h

theorem decimalValue_lt {c : Char} (h : c.isDigit = true) : decimalValue c < 10 := by
  obtain ⟨hlow, hhigh⟩ := toNat_of_isDigit h
  have hzero : '0'.toNat = 48 := rfl
  have hnine : '9'.toNat = 57 := rfl
  unfold decimalValue
  omega

theorem eq_of_decimalValue_eq {c d : Char} (hc : c.isDigit = true) (hd : d.isDigit = true)
    (h : decimalValue c = decimalValue d) : c = d := by
  have hlow := (toNat_of_isDigit hc).1
  have hlow' := (toNat_of_isDigit hd).1
  apply Char.toNat_inj.mp
  unfold decimalValue at h
  omega

theorem hexValue?_lowerHex {n : Nat} (h : n < 16) : hexValue? (lowerHex n) = some n := by
  have hall : ∀ n < 16, hexValue? (lowerHex n) = some n := by decide
  exact hall n h

/-- The number that digits write in a base. -/
def ofDigits (base : Nat) (digits : List Nat) : Nat :=
  digits.foldl (fun n d => base * n + d) 0

/-- The number that decimal digits write. -/
def ofDecimal (digits : List Char) : Nat :=
  ofDigits 10 (digits.map decimalValue)

end TypedSyntax.Text
