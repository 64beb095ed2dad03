import TypedSyntax.Python.Text

/-!
# Characters of string literals

How each character of a text stands in its literal, and what a reader of string literals
makes of it: a character without an escape, a short escape, or the number of a character
in two or four hexadecimal digits.
-/

namespace TypedSyntax.Python

/-- The control characters, below U+0020 and from U+007F to U+009F. -/
def isControl (c : Char) : Bool :=
  decide (c.toNat < 0x20) || (decide (0x7f ≤ c.toNat) && decide (c.toNat < 0xa0))

/-- A character that may stand in a literal as it is. -/
def Ordinary (c : Char) : Prop :=
  c ∉ ['"', '\\'] ∧ isControl c = false

instance (c : Char) : Decidable (Ordinary c) := inferInstanceAs (Decidable (_ ∧ _))

theorem ordinary_lowerHex {n : Nat} (h : n < 16) : Ordinary (Text.lowerHex n) := by
  have hall : ∀ n < 16, Ordinary (Text.lowerHex n) := by decide
  exact hall n h

/-! ## Reading -/

/-- The character that a backslash and one character stand for. -/
def shortEscape? (c : Char) : Option Char :=
  match c with
  | '"' => some '"'
  | '\\' => some '\\'
  | 'n' => some '\n'
  | 'r' => some '\r'
  | 't' => some '\t'
  | _ => none

/-- The character with the number that hexadecimal digits write. -/
def numbered? (digits : List Char) : Option Char := do
  let code := Text.ofDigits 16 (← digits.mapM Text.hexValue?)
  if code.isValidChar then some (Char.ofNat code) else none

/-- A character that is read, in front of the content that follows it. -/
def prepend? (c : Option Char) (following : Option (List Char × List Char)) :
    Option (List Char × List Char) := do
  let c ← c
  let (content, rest) ← following
  return (c :: content, rest)

/-- The content of a literal from behind its opening quote on, and what follows the closing
quote. A literal ends on its line. -/
def content? : List Char → Option (List Char × List Char)
  | [] => none
  | '\\' :: 'x' :: a :: b :: cs => prepend? (numbered? [a, b]) (content? cs)
  | '\\' :: 'u' :: a :: b :: c :: d :: cs => prepend? (numbered? [a, b, c, d]) (content? cs)
  | '\\' :: c :: cs => prepend? (shortEscape? c) (content? cs)
  | c :: cs =>
    if c = '"' then some ([], cs)
    else if c = '\n' ∨ c = '\r' then none
    else prepend? (some c) (content? cs)

/-- The text of a string literal. A literal that begins with three quotes is of the long form,
which is not read. -/
def readLiteral? (literal : String) : Option String :=
  match literal.toList with
  | '"' :: '"' :: '"' :: _ => none
  | '"' :: cs =>
    match content? cs with
    | some (content, []) => some (String.ofList content)
    | _ => none
  | _ => none

/-- The places of the quotes that no backslash escapes, the first character standing at a
given place. -/
def bareQuotes (place : Nat) : List Char → List Nat
  | [] => []
  | '\\' :: _ :: cs => bareQuotes (place + 2) cs
  | c :: cs => if c = '"' then place :: bareQuotes (place + 1) cs else bareQuotes (place + 1) cs

/-! ## Escapes -/

/-- How a character stands in a literal. -/
inductive Escapes (c : Char) : List Char → Prop
  | plain : Ordinary c → Escapes c [c]
  | short {e} : shortEscape? e = some c → Escapes c ['\\', e]
  | byte {m n} : m < 16 → n < 16 → c.toNat = 16 * m + n →
      Escapes c ['\\', 'x', Text.lowerHex m, Text.lowerHex n]
  | unit {m n} : m < 16 → n < 16 → c.toNat = 16 * m + n →
      Escapes c ['\\', 'u', '0', '0', Text.lowerHex m, Text.lowerHex n]

/-- Every character is escaped in one of these ways. -/
theorem escapes_escape (c : Char) : Escapes c (escape c) := by
  unfold escape
  split
  case h_6 hquote hslash _ _ _ =>
    dsimp only
    split
    · exact Escapes.byte (by omega) (by omega) (by omega)
    split
    · exact Escapes.unit (by omega) (by omega) (by omega)
    · refine Escapes.plain ⟨?_, ?_⟩
      · simp only [List.mem_cons, List.not_mem_nil, or_false, not_or]
        exact ⟨hquote, hslash⟩
      · simp only [isControl, Bool.or_eq_false_iff, Bool.and_eq_false_iff,
          decide_eq_false_iff_not]
        omega
  all_goals exact Escapes.short rfl

variable {c : Char} {cs : List Char}

theorem numbered?_eq {digits : List Char} {values : List Nat}
    (hdigits : digits.mapM Text.hexValue? = some values) (h : Text.ofDigits 16 values = c.toNat) :
    numbered? digits = some c := by
  have hvalid : c.toNat.isValidChar := c.valid
  rw [numbered?, hdigits]
  simp [h, hvalid]

/-- A line ends with control characters. -/
theorem ne_break_of_isControl (h : isControl c = false) : c ≠ '\n' ∧ c ≠ '\r' := by
  constructor
  · rintro rfl
    cases h
  · rintro rfl
    cases h

theorem Ordinary.ne (h : Ordinary c) : c ≠ '"' ∧ c ≠ '\\' ∧ c ≠ '\n' ∧ c ≠ '\r' := by
  obtain ⟨hmark, hcontrol⟩ := h
  simp only [List.mem_cons, List.not_mem_nil, or_false, not_or] at hmark
  exact ⟨hmark.1, hmark.2, ne_break_of_isControl hcontrol⟩

/-- An ordinary character is read as itself. -/
theorem content?_ordinary (h : Ordinary c) (rest : List Char) :
    content? (c :: rest) = prepend? (some c) (content? rest) := by
  obtain ⟨hquote, hslash, hfeed, hreturn⟩ := h.ne
  rw [content?]
  · rw [if_neg hquote, if_neg (not_or.mpr ⟨hfeed, hreturn⟩)]
  · exact fun _ _ _ hc _ => hslash hc
  · exact fun _ _ _ _ _ hc _ => hslash hc
  · exact fun _ _ hc _ => hslash hc

/-- A short escape is read as its character. -/
theorem content?_short {e : Char} (h : shortEscape? e = some c) (rest : List Char) :
    content? ('\\' :: e :: rest) = prepend? (some c) (content? rest) := by
  unfold shortEscape? at h
  split at h
  case h_6 => cases h
  all_goals
    obtain rfl := Option.some.inj h
    rfl

/-- A character is read back from its escape, whatever follows. -/
theorem Escapes.content?_append (h : Escapes c cs) (rest : List Char) :
    content? (cs ++ rest) = prepend? (some c) (content? rest) := by
  cases h with
  | plain hc => exact content?_ordinary hc rest
  | short he => exact content?_short he rest
  | @byte m n hm hn hcode =>
      have hvalues : [Text.lowerHex m, Text.lowerHex n].mapM Text.hexValue? = some [m, n] := by
        simp [Text.hexValue?_lowerHex hm, Text.hexValue?_lowerHex hn]
      have hnumber := numbered?_eq (c := c) hvalues (by simp [Text.ofDigits, hcode])
      exact congrArg (prepend? · (content? rest)) hnumber
  | @unit m n hm hn hcode =>
      have hvalues : ['0', '0', Text.lowerHex m, Text.lowerHex n].mapM Text.hexValue? =
          some [0, 0, m, n] := by
        have hzero : Text.hexValue? '0' = some 0 := rfl
        simp [Text.hexValue?_lowerHex hm, Text.hexValue?_lowerHex hn, hzero]
      have hnumber := numbered?_eq (c := c) hvalues (by simp [Text.ofDigits, hcode])
      exact congrArg (prepend? · (content? rest)) hnumber

/-- The text of a literal is read back, whatever follows the closing quote. -/
theorem content?_flatMap_escape (text rest : List Char) :
    content? (text.flatMap escape ++ '"' :: rest) = some (text, rest) := by
  induction text with
  | nil => rfl
  | cons c text ih =>
      rw [List.flatMap_cons, List.append_assoc, (escapes_escape c).content?_append, ih]
      rfl

theorem isControl_of_shortEscape? {e : Char} (h : shortEscape? e = some c) :
    isControl e = false := by
  unfold shortEscape? at h
  split at h
  case h_6 => cases h
  all_goals rfl

/-- No character of an escape is a control character. -/
theorem Escapes.isControl_eq_false (h : Escapes c cs) : ∀ d ∈ cs, isControl d = false := by
  have hhex : ∀ {n : Nat}, n < 16 → isControl (Text.lowerHex n) = false :=
    fun hn => (ordinary_lowerHex hn).2
  have hmarks : isControl '\\' = false ∧ isControl 'x' = false ∧ isControl 'u' = false ∧
      isControl '0' = false := by decide
  cases h with
  | plain hc => simpa using hc.2
  | short he => simp [hmarks, isControl_of_shortEscape? he]
  | byte hm hn | unit hm hn => simp [hmarks, hhex hm, hhex hn]

theorem bareQuotes_ordinary (h : Ordinary c) (place : Nat) (rest : List Char) :
    bareQuotes place (c :: rest) = bareQuotes (place + 1) rest := by
  obtain ⟨hquote, hslash, -, -⟩ := h.ne
  rw [bareQuotes, if_neg hquote]
  exact fun _ _ hc _ => hslash hc

/-- No quote of an escape stands bare. -/
theorem Escapes.bareQuotes_append (h : Escapes c cs) (place : Nat) (rest : List Char) :
    bareQuotes place (cs ++ rest) = bareQuotes (place + cs.length) rest := by
  have hzero : Ordinary '0' := by decide
  cases h with
  | plain hc => exact bareQuotes_ordinary hc place rest
  | short => rfl
  | @byte m n hm hn =>
      change bareQuotes (place + 2) (Text.lowerHex m :: Text.lowerHex n :: rest) = _
      rw [bareQuotes_ordinary (ordinary_lowerHex hm), bareQuotes_ordinary (ordinary_lowerHex hn)]
      rfl
  | @unit m n hm hn =>
      change bareQuotes (place + 2) ('0' :: '0' :: Text.lowerHex m :: Text.lowerHex n :: rest) = _
      rw [bareQuotes_ordinary hzero, bareQuotes_ordinary hzero,
        bareQuotes_ordinary (ordinary_lowerHex hm), bareQuotes_ordinary (ordinary_lowerHex hn)]
      rfl

/-- An escaped text has no bare quotes. -/
theorem bareQuotes_flatMap_escape (text : List Char) (place : Nat) (rest : List Char) :
    bareQuotes place (text.flatMap escape ++ rest) =
      bareQuotes (place + (text.flatMap escape).length) rest := by
  induction text generalizing place with
  | nil => rfl
  | cons c text ih =>
      rw [List.flatMap_cons, List.append_assoc, (escapes_escape c).bareQuotes_append, ih,
        List.length_append, Nat.add_assoc]

theorem Escapes.ne_nil (h : Escapes c cs) : cs ≠ [] := by
  cases h <;> exact List.cons_ne_nil _ _

theorem Escapes.head?_ne (h : Escapes c cs) : cs.head? ≠ some '"' := by
  cases h with
  | plain hc => simpa using hc.ne.1
  | short | byte | unit => simp

/-! ## Literals -/

theorem toList_quote (s : String) :
    (quote s).toList = '"' :: (s.toList.flatMap escape ++ ['"']) := by
  simp [quote]

/-- Behind the opening quote there are no two more. -/
theorem tail_quote_ne (s : String) (rest : List Char) :
    s.toList.flatMap escape ++ ['"'] ≠ '"' :: '"' :: rest := by
  cases s.toList with
  | nil => simp
  | cons c text =>
      obtain ⟨d, cs, hcs⟩ := List.exists_cons_of_ne_nil (escapes_escape c).ne_nil
      intro h
      rw [List.flatMap_cons, hcs, List.cons_append, List.cons_append] at h
      have hd := (List.cons.inj h).1
      exact (escapes_escape c).head?_ne (by rw [hcs, hd]; rfl)

/-- A quoted text is read back. -/
theorem readLiteral?_quote (s : String) : readLiteral? (quote s) = some s := by
  have hcontent := content?_flatMap_escape s.toList []
  rw [readLiteral?, toList_quote]
  split
  · next heq => exact absurd (List.cons.inj heq).2 (tail_quote_ne s _)
  · next heq =>
    obtain rfl := (List.cons.inj heq).2
    rw [hcontent]
    simp
  · next hnone => exact absurd rfl (hnone _)

/-- No control character stands in a quoted text. -/
theorem isControl_of_mem_quote {s : String} (h : c ∈ (quote s).toList) : isControl c = false := by
  simp only [toList_quote, List.mem_cons, List.mem_append, List.mem_flatMap,
    List.not_mem_nil, or_false] at h
  rcases h with rfl | ⟨d, -, hc⟩ | rfl
  · rfl
  · exact (escapes_escape d).isControl_eq_false c hc
  · rfl

/-- The first and the last character are the only quotes that no backslash escapes. -/
theorem bareQuotes_quote (s : String) :
    bareQuotes 0 (quote s).toList = [0, (quote s).length - 1] := by
  have hlength : (quote s).length = (s.toList.flatMap escape).length + 2 := by
    rw [← String.length_toList, toList_quote, List.length_cons, List.length_append]
    rfl
  rw [hlength, toList_quote]
  change 0 :: bareQuotes 1 (s.toList.flatMap escape ++ ['"']) = _
  rw [bareQuotes_flatMap_escape, Nat.add_comm]
  rfl

end TypedSyntax.Python
