import TypedSyntax.Text.Digit
import TypedSyntax.Text.Split

/-!
# Texts of temporal literals

Dates `YYYY-MM-DD` of the proleptic Gregorian calendar from year 1 to 9999,
times `HH:MM:SS` with an optional fraction, and both together.
-/

namespace TypedSyntax.Temporal

/-- Why a temporal text is refused. -/
inductive Fault where
  | notDate (text : String)
  | notTime (text : String)
  | missingSeparator (text : String) (separator : Char)
deriving DecidableEq, Repr

def Fault.message : Fault → String
  | .notDate text => "`" ++ text ++ "` is not a YYYY-MM-DD date"
  | .notTime text => "`" ++ text ++ "` is not an HH:MM:SS time"
  | .missingSeparator text separator =>
    "`" ++ text ++ "` is missing the `" ++ separator.toString ++ "` separator"

/-- The number written by exactly `count` decimal digits. -/
def digits? (count : Nat) (part : List Char) : Option Nat :=
  if part.length = count ∧ part.all Char.isDigit then
    some (Text.ofDecimal part)
  else
    none

def isLeapYear (year : Nat) : Bool :=
  year % 4 == 0 && (year % 100 != 0 || year % 400 == 0)

def daysInMonth (year month : Nat) : Nat :=
  match month with
  | 2 => if isLeapYear year then 29 else 28
  | 4 | 6 | 9 | 11 => 30
  | _ => 31

/-- Whether the calendar has this day. -/
def isCalendarDay (year month day : Nat) : Bool :=
  year != 0 && decide (1 ≤ month) && decide (month ≤ 12) && day != 0 &&
    decide (day ≤ daysInMonth year month)

def isDate (text : List Char) : Bool :=
  match Text.pieces '-' text with
  | [y, m, d] =>
    match digits? 4 y, digits? 2 m, digits? 2 d with
    | some year, some month, some day => isCalendarDay year month day
    | _, _, _ => false
  | _ => false

def isClock (text : List Char) : Bool :=
  match Text.pieces ':' text with
  | [h, m, s] =>
    match digits? 2 h, digits? 2 m, digits? 2 s with
    | some hour, some minute, some second =>
      decide (hour ≤ 23) && decide (minute ≤ 59) && decide (second ≤ 59)
    | _, _, _ => false
  | _ => false

def isTime (text : List Char) : Bool :=
  match Text.cutOnce? '.' text with
  | none => isClock text
  | some (clock, fraction) => isClock clock && !fraction.isEmpty && fraction.all Char.isDigit

def checkDate (text : List Char) : Except Fault Unit :=
  if isDate text then .ok () else .error (.notDate (String.ofList text))

def checkTime (text : List Char) : Except Fault Unit :=
  if isTime text then .ok () else .error (.notTime (String.ofList text))

/-- A date and a time around the first separator. -/
def checkDateTime (separator : Char) (text : List Char) : Except Fault Unit := do
  match Text.cutOnce? separator text with
  | none => .error (.missingSeparator (String.ofList text) separator)
  | some (date, time) =>
    checkDate date
    checkTime time

end TypedSyntax.Temporal
