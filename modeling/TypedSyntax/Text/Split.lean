/-!
# Splitting text

Texts as lists of characters, cut at separators and at line ends.
-/

namespace TypedSyntax.Text

/-- Puts one character in front of the pieces that follow it. -/
def addToPieces (separator : Char) (c : Char) (rest : List (List Char)) : List (List Char) :=
  if c = separator then
    [] :: rest
  else
    match rest with
    | [] => [[c]]
    | piece :: others => (c :: piece) :: others

/-- Cuts a text at every separator. There is one piece more than separators. -/
def pieces (separator : Char) (text : List Char) : List (List Char) :=
  text.foldr (addToPieces separator) [[]]

/-- The parts before and after the first separator. -/
def cutOnce? (separator : Char) : List Char → Option (List Char × List Char)
  | [] => none
  | c :: cs =>
    if c = separator then
      some ([], cs)
    else
      (cutOnce? separator cs).map fun (before, after) => (c :: before, after)

/-- Drops one carriage return at the end. -/
def dropReturn (line : List Char) : List Char :=
  if line.getLast? = some '\r' then line.dropLast else line

/-- The lines of a text. A line ends with a line feed, which may follow a
carriage return; the last line may end with the text instead and then keeps a
carriage return. -/
def lines (text : List Char) : List (List Char) :=
  let cut := pieces '\n' text
  let complete := cut.dropLast.map dropReturn
  match cut.getLast? with
  | none | some [] => complete
  | some rest => complete ++ [rest]

theorem addToPieces_ne_nil (separator c : Char) (rest : List (List Char)) :
    addToPieces separator c rest ≠ [] := by
  unfold addToPieces
  split
  · simp
  · split <;> simp

theorem pieces_ne_nil (separator : Char) (text : List Char) : pieces separator text ≠ [] := by
  cases text with
  | nil => simp [pieces]
  | cons c cs => exact addToPieces_ne_nil separator c _

end TypedSyntax.Text
