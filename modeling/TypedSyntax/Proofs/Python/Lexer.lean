import TypedSyntax.Proofs.Python.Escape
import TypedSyntax.Proofs.Python.Grammar

/-!
# Tokens of Python expressions

A lexer for texts of one line, with the longest token first, and for each kind
of token which characters before which others it reads as that token.
-/

namespace TypedSyntax.Python

/-- The digits after a decimal point, with the point. -/
def fraction (cs : List Char) : List Char × List Char :=
  match cs with
  | '.' :: cs => ('.' :: cs.takeWhile Char.isDigit, cs.dropWhile Char.isDigit)
  | cs => ([], cs)

/-- An exponent, which may have a sign. -/
def exponent (cs : List Char) : List Char × List Char :=
  match cs with
  | 'e' :: '-' :: c :: rest =>
    if c.isDigit then
      ('e' :: '-' :: c :: rest.takeWhile Char.isDigit, rest.dropWhile Char.isDigit)
    else ([], cs)
  | 'e' :: '+' :: c :: rest =>
    if c.isDigit then
      ('e' :: '+' :: c :: rest.takeWhile Char.isDigit, rest.dropWhile Char.isDigit)
    else ([], cs)
  | 'e' :: c :: rest =>
    if c.isDigit then ('e' :: c :: rest.takeWhile Char.isDigit, rest.dropWhile Char.isDigit)
    else ([], cs)
  | cs => ([], cs)

/-- A number without a sign. -/
def number (cs : List Char) : List Char × List Char :=
  let (point, rest) := fraction (cs.dropWhile Char.isDigit)
  let (power, rest) := exponent rest
  (cs.takeWhile Char.isDigit ++ point ++ power, rest)

/-- What follows the opening quote of a string literal, up to the closing one
and after it. -/
def quoted (quote : Char) : List Char → Option (List Char × List Char)
  | [] => none
  | '\\' :: c :: cs => (quoted quote cs).map fun (body, rest) => ('\\' :: c :: body, rest)
  | c :: cs =>
    if c = quote then some ([c], cs)
    else if c = '\n' ∨ c = '\r' then none
    else (quoted quote cs).map fun (body, rest) => (c :: body, rest)

def longMarks : List (List Char) :=
  [['*', '*'], ['/', '/'], ['=', '='], ['!', '='], ['<', '='], ['>', '=']]

def shortMarks : List Char :=
  ['(', ')', '[', ']', '\x7b', '\x7d', ',', ':', '.', '+', '-', '*', '/', '%', '^', '~', '<', '>']

/-- An operator or delimiter, the longest one. -/
def mark (c : Char) (cs : List Char) : Option (List Char × List Char) :=
  if longMarks.contains (c :: cs.take 1) then some (c :: cs.take 1, cs.drop 1)
  else if shortMarks.contains c then some ([c], cs)
  else none

/-- The tokens of some characters. -/
def lexWithin : (fuel : Nat) → List Char → Option (List Token)
  | _, [] => some []
  | 0, _ :: _ => none
  | n + 1, c :: cs =>
    if c = ' ' then lexWithin n cs
    else if isNameStart c then
      (lexWithin n (cs.dropWhile isNameChar)).map
        (.word (String.ofList (c :: cs.takeWhile isNameChar)) :: ·)
    else if c.isDigit then
      (lexWithin n (number (c :: cs)).2).map (.number (String.ofList (number (c :: cs)).1) :: ·)
    else if c = '"' ∨ c = '\'' then do
      let (body, rest) ← quoted c cs
      (lexWithin n rest).map (.text (String.ofList (c :: body)) :: ·)
    else do
      let (found, rest) ← mark c cs
      (lexWithin n rest).map (.mark (String.ofList found) :: ·)

/-- The tokens of a text. -/
def lex (text : String) : Option (List Token) :=
  lexWithin text.toList.length text.toList

/-- The characters have these tokens. -/
def Lexes (cs : List Char) (ts : List Token) : Prop :=
  ∀ n ≥ cs.length, lexWithin n cs = some ts

variable {cs rest : List Char} {ts us : List Token}

theorem lexes_nil : Lexes [] [] := by
  intro n _
  cases n <;> rfl

/-- Spaces between tokens are skipped. -/
theorem Lexes.space (h : Lexes cs ts) : Lexes (' ' :: cs) ts := by
  intro n hn
  obtain ⟨n, rfl⟩ := Nat.exists_eq_add_of_le' (Nat.le_trans (Nat.le_add_left 1 _) hn)
  simp only [lexWithin, if_true]
  exact h n (by simpa using hn)

/-! ## Words -/

/-- The next character does not continue a run of some characters. -/
def Stop (p : Char → Bool) (rest : List Char) : Prop :=
  ∀ c, rest.head? = some c → p c = false

theorem stop_cons {p : Char → Bool} {c : Char} (h : p c = false) : Stop p (c :: rest) := by
  intro d hd
  obtain rfl := Option.some.inj hd
  exact h

theorem Stop.takeWhile_eq_nil {p : Char → Bool} (h : Stop p rest) : rest.takeWhile p = [] := by
  cases rest with
  | nil => rfl
  | cons c rest => simp [h c rfl]

theorem Stop.dropWhile_eq {p : Char → Bool} (h : Stop p rest) : rest.dropWhile p = rest := by
  cases rest with
  | nil => rfl
  | cons c rest => simp [h c rfl]

/-- A run ends where the next character does not continue it. -/
theorem takeWhile_append {p : Char → Bool} (h : ∀ c ∈ cs, p c = true) (hrest : Stop p rest) :
    (cs ++ rest).takeWhile p = cs := by
  rw [List.takeWhile_append_of_pos h, hrest.takeWhile_eq_nil, List.append_nil]

theorem dropWhile_append {p : Char → Bool} (h : ∀ c ∈ cs, p c = true) (hrest : Stop p rest) :
    (cs ++ rest).dropWhile p = rest := by
  rw [List.dropWhile_append_of_pos h, hrest.dropWhile_eq]

/-- A name is a token if no character of a name follows. -/
theorem Lexes.word {name : String} (hname : isName name = true) (hrest : Stop isNameChar rest)
    (h : Lexes rest ts) : Lexes (name.toList ++ rest) (.word name :: ts) := by
  unfold isName at hname
  split at hname
  · cases hname
  next c cs hcs =>
  obtain ⟨hstart, hall⟩ := Bool.and_eq_true_iff.mp hname
  rw [List.all_eq_true] at hall
  rw [hcs]
  intro n hn
  obtain ⟨n, rfl⟩ := Nat.exists_eq_add_of_le' (Nat.le_trans (Nat.le_add_left 1 _) hn)
  have hspace : c ≠ ' ' := by
    rintro rfl
    revert hstart
    decide
  have htext : String.ofList (c :: cs) = name := by rw [← hcs, String.ofList_toList]
  simp only [List.cons_append, lexWithin, hspace, if_false, hstart, if_true,
    takeWhile_append hall hrest, dropWhile_append hall hrest, htext]
  rw [h n (by simp at hn; omega)]
  rfl

/-! ## Marks -/

/-- The first characters that leave only a mark to read. -/
def IsMarkStart (c : Char) : Prop :=
  c ≠ ' ' ∧ isNameStart c = false ∧ c.isDigit = false ∧ ¬ (c = '"' ∨ c = '\'')

/-- What is read as a mark is one token. -/
theorem Lexes.marked {c : Char} {m after : List Char} (h : Lexes rest ts) (hc : IsMarkStart c)
    (hmark : Python.mark c after = some (m, rest)) (hlength : rest.length ≤ after.length) :
    Lexes (c :: after) (.mark (String.ofList m) :: ts) := by
  intro n hn
  obtain ⟨n, rfl⟩ := Nat.exists_eq_add_of_le' (Nat.le_trans (Nat.le_add_left 1 _) hn)
  obtain ⟨hspace, hstart, hdigit, hquote⟩ := hc
  have hrest : rest.length ≤ n := Nat.le_trans hlength (Nat.le_of_succ_le_succ hn)
  simp only [lexWithin, hspace, hstart, hdigit, hquote, if_false, Bool.false_eq_true, hmark,
    Option.bind_eq_bind, Option.bind_some]
  rw [h n hrest]
  rfl

/-- A mark of one character is a token unless it begins a longer mark. -/
theorem Lexes.mark {c : Char} (h : Lexes rest ts) (hc : c ∈ shortMarks)
    (hlong : longMarks.contains (c :: rest.take 1) = false) :
    Lexes (c :: rest) (.mark (String.ofList [c]) :: ts) := by
  apply h.marked _ _ (Nat.le_refl _)
  · simp only [shortMarks, List.mem_cons, List.not_mem_nil, or_false] at hc
    unfold IsMarkStart
    rcases hc with rfl | rfl | rfl | rfl | rfl | rfl | rfl | rfl | rfl | rfl | rfl | rfl | rfl |
      rfl | rfl | rfl | rfl | rfl <;> decide
  · simp only [Python.mark, hlong, Bool.false_eq_true, if_false]
    rw [if_pos (by simpa using hc)]

/-- The marks that begin no longer one. -/
def singleMarks : List Char :=
  shortMarks.filter fun c => longMarks.all fun long => long.head? ≠ some c

/-- A mark that begins no longer one is a token before everything. -/
theorem Lexes.single {c : Char} (h : Lexes rest ts) (hc : c ∈ singleMarks) :
    Lexes (c :: rest) (.mark (String.ofList [c]) :: ts) := by
  obtain ⟨hshort, hlong⟩ := List.mem_filter.mp hc
  rw [List.all_eq_true] at hlong
  apply h.mark hshort
  rw [List.contains_eq_mem, decide_eq_false_iff_not]
  intro hmem
  simpa using hlong _ hmem

/-- A mark of two characters is one token. -/
theorem Lexes.long {c d : Char} (h : Lexes rest ts) (hcd : [c, d] ∈ longMarks) :
    Lexes (c :: d :: rest) (.mark (String.ofList [c, d]) :: ts) := by
  apply h.marked _ _ (Nat.le_succ _)
  · simp only [longMarks, List.mem_cons, List.cons.injEq, List.not_mem_nil, or_false] at hcd
    unfold IsMarkStart
    rcases hcd with ⟨rfl, -⟩ | ⟨rfl, -⟩ | ⟨rfl, -⟩ | ⟨rfl, -⟩ | ⟨rfl, -⟩ | ⟨rfl, -⟩ <;> decide
  · have hcontains : longMarks.contains [c, d] = true := by simpa using hcd
    simp only [Python.mark, List.take_succ_cons, List.take_zero, List.drop_succ_cons,
      List.drop_zero, hcontains, if_true]

/-- Every binary operator before a space. -/
theorem Lexes.symbol (h : Lexes rest ts) (op : BinaryOperator) :
    Lexes ((if op = .xor then "^" else op.token).toList ++ ' ' :: rest) (op.symbol :: ts) := by
  have hword : ∀ {name : String}, isName name = true →
      Lexes (name.toList ++ ' ' :: rest) (.word name :: ts) := fun hname =>
    h.space.word hname (by intro c hc; obtain rfl := Option.some.inj hc; decide)
  cases op with
  | and | or => exact hword (by decide)
  | eq | ne | le | ge | pow | floorDiv => exact h.space.long (by decide)
  | add | sub | mod | xor => exact h.space.single (by decide)
  | mul => exact h.space.mark (c := '*') (by decide) rfl
  | div => exact h.space.mark (c := '/') (by decide) rfl
  | lt => exact h.space.mark (c := '<') (by decide) rfl
  | gt => exact h.space.mark (c := '>') (by decide) rfl

/-! ## Numbers -/

/-- The characters that may follow an expression. -/
def boundaries : List Char :=
  [' ', ')', ']', '\x7d', ',', ':']

/-- A character comes next that continues no word or number. -/
def Bounded (rest : List Char) : Prop :=
  ∀ c, rest.head? = some c → c ∈ boundaries

theorem bounded_nil : Bounded [] := by
  intro c hc
  cases hc

theorem bounded_cons {c : Char} (hc : c ∈ boundaries) : Bounded (c :: rest) := by
  intro d hd
  obtain rfl := Option.some.inj hd
  exact hc

/-- A boundary stops every run that has no boundary in it. -/
theorem Bounded.stop {p : Char → Bool} (h : Bounded rest)
    (hp : (boundaries.all fun c => !p c) = true) : Stop p rest := by
  intro c hc
  simpa using List.all_eq_true.mp hp c (h c hc)

/-- A number as it is written without a sign. -/
inductive Unsigned : List Char → Prop
  | mk {whole point power} : whole ≠ [] → (∀ c ∈ whole, c.isDigit = true) →
      (point = [] ∨ ∃ ds, point = '.' :: ds ∧ ∀ c ∈ ds, c.isDigit = true) →
      (power = [] ∨ ∃ d ds, power = 'e' :: d :: ds ∧ ∀ c ∈ d :: ds, c.isDigit = true) →
      Unsigned (whole ++ point ++ power)

/-- An exponent is read up to its last digit. -/
theorem exponent_append {power : List Char}
    (h : power = [] ∨ ∃ d ds, power = 'e' :: d :: ds ∧ ∀ c ∈ d :: ds, c.isDigit = true)
    (hrest : Bounded rest) : exponent (power ++ rest) = (power, rest) := by
  have hstop : Stop Char.isDigit rest := hrest.stop (by decide)
  rcases h with rfl | ⟨d, ds, rfl, hds⟩
  · cases rest with
    | nil => rfl
    | cons c rest =>
        have hc : c ≠ 'e' := by
          rintro rfl
          have := hrest 'e' rfl
          revert this
          decide
        unfold exponent
        split <;> simp_all
  · obtain ⟨hd, hds⟩ := List.forall_mem_cons.mp hds
    have hminus : d ≠ '-' := by
      rintro rfl
      revert hd
      decide
    have hplus : d ≠ '+' := by
      rintro rfl
      revert hd
      decide
    simp only [List.cons_append]
    unfold exponent
    split
    · next heq => simp at heq; exact (hminus heq.1).elim
    · next heq => simp at heq; exact (hplus heq.1).elim
    · next heq =>
      simp only [List.cons.injEq, true_and] at heq
      obtain ⟨rfl, rfl⟩ := heq
      rw [if_pos hd, takeWhile_append hds hstop, dropWhile_append hds hstop]
    · next heq => exact (heq _ _ rfl).elim

/-- A fraction is read up to its last digit. -/
theorem fraction_append {point : List Char}
    (h : point = [] ∨ ∃ ds, point = '.' :: ds ∧ ∀ c ∈ ds, c.isDigit = true)
    (hrest : Stop (fun c => c.isDigit || c == '.') rest) :
    fraction (point ++ rest) = (point, rest) := by
  have hstop : Stop Char.isDigit rest := fun c hc =>
    (Bool.or_eq_false_iff.mp (hrest c hc)).1
  rcases h with rfl | ⟨ds, rfl, hds⟩
  · cases rest with
    | nil => rfl
    | cons c rest =>
        have hc : c ≠ '.' := by simpa using (Bool.or_eq_false_iff.mp (hrest c rfl)).2
        unfold fraction
        split <;> simp_all
  · simp [fraction, takeWhile_append hds hstop, dropWhile_append hds hstop]

/-- A number is read whole before a boundary. -/
theorem Unsigned.number_append (h : Unsigned cs) (hrest : Bounded rest) :
    number (cs ++ rest) = (cs, rest) := by
  obtain @⟨whole, point, power, -, hwhole, hpoint, hpower⟩ := h
  have hafter : Stop (fun c => c.isDigit || c == '.') (power ++ rest) := by
    rcases hpower with rfl | ⟨d, ds, rfl, -⟩
    · exact hrest.stop (by decide)
    · intro c hc
      obtain rfl := Option.some.inj hc
      decide
  have hnext : Stop Char.isDigit (point ++ (power ++ rest)) := by
    rcases hpoint with rfl | ⟨ds, rfl, -⟩
    · exact fun c hc => (Bool.or_eq_false_iff.mp (hafter c hc)).1
    · intro c hc
      obtain rfl := Option.some.inj hc
      decide
  simp only [number, List.append_assoc, takeWhile_append hwhole hnext,
    dropWhile_append hwhole hnext, fraction_append hpoint hafter, exponent_append hpower hrest]

theorem isNameStart_of_isDigit {c : Char} (h : c.isDigit = true) : isNameStart c = false := by
  rw [Char.isDigit, Bool.and_eq_true, decide_eq_true_eq, decide_eq_true_eq] at h
  have hle : c.val.toNat ≤ 57 := UInt32.le_iff_toNat_le.mp h.2
  have hupper : c.isUpper = false := by
    apply decide_eq_false
    rintro ⟨hfirst, -⟩
    have hge : 65 ≤ c.val.toNat := UInt32.le_iff_toNat_le.mp hfirst
    omega
  have hlower : c.isLower = false := by
    apply Bool.and_eq_false_imp.mpr
    intro hfirst
    have hge : 97 ≤ c.val.toNat := UInt32.le_iff_toNat_le.mp (of_decide_eq_true hfirst)
    omega
  have hunder : (c == '_') = false := by
    apply beq_eq_false_iff_ne.mpr
    rintro rfl
    revert hle
    decide
  have hsmall : decide (128 ≤ c.toNat) = false := by
    rw [decide_eq_false_iff_not, Char.toNat]
    omega
  calc isNameStart c
      = (c.isUpper || c.isLower || c == '_' || decide (128 ≤ c.toNat)) := rfl
    _ = false := by rw [hupper, hlower, hunder, hsmall]; rfl

/-- A number is a token if a boundary follows. -/
theorem Lexes.number (h : Lexes rest ts) (hcs : Unsigned cs) (hrest : Bounded rest) :
    Lexes (cs ++ rest) (.number (String.ofList cs) :: ts) := by
  have hnumber := hcs.number_append hrest
  obtain @⟨whole, point, power, hne, hwhole, -, -⟩ := hcs
  obtain ⟨c, whole, rfl⟩ := List.exists_cons_of_ne_nil hne
  have hdigit : c.isDigit = true := hwhole c List.mem_cons_self
  have hspace : c ≠ ' ' := by
    rintro rfl
    revert hdigit
    decide
  have hstart := isNameStart_of_isDigit hdigit
  intro n hn
  obtain ⟨n, rfl⟩ := Nat.exists_eq_add_of_le' (Nat.le_trans (Nat.le_add_left 1 _) hn)
  simp only [List.cons_append, List.append_assoc] at hnumber ⊢
  simp only [lexWithin, hspace, hstart, hdigit, hnumber, if_false, if_true, Bool.false_eq_true]
  rw [h n (by simp at hn; omega)]
  rfl

/-! ## String literals -/

theorem quoted_ordinary {c : Char} (hc : Ordinary c) (cs : List Char) :
    quoted '"' (c :: cs) = (quoted '"' cs).map fun (body, rest) => (c :: body, rest) := by
  obtain ⟨hquote, hescape, hline, hreturn⟩ := hc.ne
  rw [quoted]
  · simp [hquote, hline, hreturn]
  · intro c' cs' hc' _
    exact hescape hc'

/-- An escape does not end a string literal. -/
theorem Escapes.quoted_append {c : Char} {es : List Char} (h : Escapes c es) (cs : List Char) :
    quoted '"' (es ++ cs) = (quoted '"' cs).map fun (body, rest) => (es ++ body, rest) := by
  have hcontrol : ∀ {d : Char} {tail : List Char},
      quoted '"' ('\\' :: d :: tail) =
        (quoted '"' tail).map fun (body, rest) => ('\\' :: d :: body, rest) := by
    intro d tail
    rw [quoted]
  cases h with
  | plain hc => exact quoted_ordinary hc cs
  | short => exact hcontrol
  | byte hm hn =>
      simp only [List.cons_append, List.nil_append]
      rw [hcontrol, quoted_ordinary (ordinary_lowerHex hm), quoted_ordinary (ordinary_lowerHex hn)]
      simp [Option.map_map, Function.comp_def]
  | unit hm hn =>
      have hzero : Ordinary '0' := by decide
      simp only [List.cons_append, List.nil_append]
      rw [hcontrol, quoted_ordinary hzero, quoted_ordinary hzero,
        quoted_ordinary (ordinary_lowerHex hm), quoted_ordinary (ordinary_lowerHex hn)]
      simp [Option.map_map, Function.comp_def]

/-- An escaped text ends at the first quote after it. -/
theorem quoted_flatMap_escape (text rest : List Char) :
    quoted '"' (text.flatMap escape ++ '"' :: rest) =
      some (text.flatMap escape ++ ['"'], rest) := by
  induction text with
  | nil =>
      rw [List.flatMap_nil, List.nil_append, quoted]
      · simp
      · intro c cs hc _
        cases hc
  | cons c text ih =>
      rw [List.flatMap_cons, List.append_assoc, (escapes_escape c).quoted_append, ih]
      simp

/-- A string literal is a token if it ends at its closing quote. -/
theorem Lexes.text {q : Char} {body : List Char} (h : Lexes rest ts) (hq : q ∈ ['"', '\''])
    (hbody : quoted q (body ++ rest) = some (body, rest)) :
    Lexes (q :: body ++ rest) (.text (String.ofList (q :: body)) :: ts) := by
  intro n hn
  obtain ⟨n, rfl⟩ := Nat.exists_eq_add_of_le' (Nat.le_trans (Nat.le_add_left 1 _) hn)
  have hother : q ≠ ' ' ∧ isNameStart q = false ∧ q.isDigit = false ∧ (q = '"' ∨ q = '\'') := by
    simp only [List.mem_cons, List.not_mem_nil, or_false] at hq
    rcases hq with rfl | rfl <;> decide
  obtain ⟨hspace, hstart, hdigit, hquote⟩ := hother
  simp only [List.cons_append, lexWithin, hspace, hstart, hdigit, hquote, if_false,
    Bool.false_eq_true, if_true, hbody, Option.bind_eq_bind, Option.bind_some]
  rw [h n (by simp at hn; omega)]
  rfl

/-- A quoted text is a token, whatever the text and whatever follows. -/
theorem Lexes.quote (h : Lexes rest ts) (text : String) :
    Lexes ((quote text).toList ++ rest) (.text (quote text) :: ts) := by
  have hbody := quoted_flatMap_escape text.toList rest
  rw [← List.singleton_append, ← List.append_assoc] at hbody
  have htext := h.text (by decide) hbody
  rw [← toList_quote, String.ofList_toList] at htext
  exact htext

end TypedSyntax.Python
