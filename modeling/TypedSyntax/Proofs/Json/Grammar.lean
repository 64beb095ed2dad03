import TypedSyntax.Json.Value

/-!
# The grammar of JSON texts

Which characters write a value, with blanks between the tokens, and that the
readers of strings and numbers give back what is written.
-/

namespace TypedSyntax.Json

/-- Characters that are skipped between tokens. -/
def Blank (cs : List Char) : Prop :=
  ∀ c ∈ cs, isBlank c = true

/-- The characters between the quotes of a string. -/
inductive Body : List Piece → List Char → Prop
  | nil : Body [] []
  | plain {c ps cs} : c ≠ '"' → c ≠ '\\' → 0x20 ≤ c.toNat → Body ps cs →
      Body (.char c :: ps) (c :: cs)
  | escaped {c e ps cs} : simpleEscape? c = some e → Body ps cs →
      Body (.char e :: ps) ('\\' :: c :: cs)
  | unit {a b c d w x y z ps cs} : Text.hexValue? a = some w → Text.hexValue? b = some x →
      Text.hexValue? c = some y → Text.hexValue? d = some z → Body ps cs →
      Body (.unit (Text.ofDigits 16 [w, x, y, z]) :: ps) ('\\' :: 'u' :: a :: b :: c :: d :: cs)

/-- Some decimal digits and their values. -/
inductive Digits : List Nat → List Char → Prop
  | mk {cs} : cs ≠ [] → (∀ c ∈ cs, c.isDigit = true) → Digits (cs.map Text.decimalValue) cs

inductive Fraction : List Nat → List Char → Prop
  | absent : Fraction [] []
  | present {ds cs} : Digits ds cs → Fraction ds ('.' :: cs)

inductive Exponent : Option Int → List Char → Prop
  | absent : Exponent none []
  | unsigned {mark ds cs} : mark = 'e' ∨ mark = 'E' → Digits ds cs →
      Exponent (some (Text.ofDigits 10 ds)) (mark :: cs)
  | plus {mark ds cs} : mark = 'e' ∨ mark = 'E' → Digits ds cs →
      Exponent (some (Text.ofDigits 10 ds)) (mark :: '+' :: cs)
  | minus {mark ds cs} : mark = 'e' ∨ mark = 'E' → Digits ds cs →
      Exponent (some (-(Text.ofDigits 10 ds : Int))) (mark :: '-' :: cs)

/-- A number, without a zero in front of other digits. -/
inductive Numeral : NumberText → List Char → Prop
  | mk {negative whole fraction exponent ws fs es} : Digits whole ws →
      ¬ (whole.head? = some 0 ∧ 1 < whole.length) → Fraction fraction fs → Exponent exponent es →
      Numeral ⟨negative, whole, fraction, exponent⟩
        ((if negative then ['-'] else []) ++ (ws ++ (fs ++ es)))

/-- What a stretch of a text may write: a value, or the rest of a list or an
object up to its closing bracket. -/
inductive Part where
  | value (v : Value)
  | items (vs : List Value)
  | entries (es : List (List Piece × Value))

/-- The characters write the part. -/
inductive Spelled : Part → List Char → Prop
  | padded {v b b' cs} : Blank b → Blank b' → Spelled (.value v) cs →
      Spelled (.value v) (b ++ (cs ++ b'))
  | null : Spelled (.value .null) ['n', 'u', 'l', 'l']
  | true : Spelled (.value (.bool true)) ['t', 'r', 'u', 'e']
  | false : Spelled (.value (.bool false)) ['f', 'a', 'l', 's', 'e']
  | number {n cs} : Numeral n cs → Spelled (.value (.number n)) cs
  | string {ps cs} : Body ps cs → Spelled (.value (.string ps)) ('"' :: (cs ++ ['"']))
  | emptyList {b} : Blank b → Spelled (.value (.list [])) ('[' :: (b ++ [']']))
  | list {vs cs} : Spelled (.items vs) cs → Spelled (.value (.list vs)) ('[' :: cs)
  | emptyObject {b} : Blank b → Spelled (.value (.object [])) ('{' :: (b ++ ['}']))
  | object {es cs} : Spelled (.entries es) cs → Spelled (.value (.object es)) ('{' :: cs)
  | lastItem {v cs} : Spelled (.value v) cs → Spelled (.items [v]) (cs ++ [']'])
  | moreItems {v vs cs ds} : Spelled (.value v) cs → Spelled (.items vs) ds →
      Spelled (.items (v :: vs)) (cs ++ ',' :: ds)
  | lastEntry {key v ks b b' cs} : Blank b → Body key ks → Blank b' → Spelled (.value v) cs →
      Spelled (.entries [(key, v)]) (b ++ '"' :: (ks ++ '"' :: (b' ++ ':' :: (cs ++ ['}']))))
  | moreEntries {key v es ks b b' cs ds} : Blank b → Body key ks → Blank b' →
      Spelled (.value v) cs → Spelled (.entries es) ds →
      Spelled (.entries ((key, v) :: es))
        (b ++ '"' :: (ks ++ '"' :: (b' ++ ':' :: (cs ++ ',' :: ds))))

variable {cs rest : List Char}

theorem skipBlanks_append {b : List Char} (hb : Blank b) (cs : List Char) :
    skipBlanks (b ++ cs) = skipBlanks cs :=
  List.dropWhile_append_of_pos hb

theorem skipBlanks_cons {c : Char} (hc : isBlank c = false) (cs : List Char) :
    skipBlanks (c :: cs) = c :: cs := by
  simp [skipBlanks, hc]

/-! ## Strings -/

/-- A string is read up to its closing quote. -/
theorem Body.string?_append {ps : List Piece} (h : Body ps cs) (rest : List Char) :
    string? (cs ++ '"' :: rest) = some (ps, rest) := by
  induction h with
  | nil =>
      rw [List.nil_append, string?]
  | @plain c ps cs hquote hslash hc _ ih =>
      rw [List.cons_append, string?, if_neg (by omega), ih]
      · rfl
      · exact hquote
      · intro a b c' d tail he _
        exact hslash he
      · intro c' tail he _
        exact hslash he
  | @escaped c e ps cs he _ ih =>
      have hu : c ≠ 'u' := by
        rintro rfl
        cases he
      rw [List.cons_append, List.cons_append, string?, he, ih]
      · rfl
      · intro a b c' d tail hc _
        exact hu hc
  | unit ha hb hc hd _ ih =>
      simp only [List.cons_append]
      rw [string?, ha, hb, hc, hd, ih]
      rfl

/-! ## Numbers -/

/-- Whether a character after a number would continue it. -/
def continues (c : Char) : Bool :=
  c.isDigit || c == '.' || c == 'e' || c == 'E'

/-- No number is continued by what comes next. -/
def Ends (rest : List Char) : Prop :=
  ∀ c, rest.head? = some c → continues c = false

theorem ends_cons {c : Char} (hc : continues c = false) (rest : List Char) : Ends (c :: rest) := by
  intro d hd
  obtain rfl := Option.some.inj hd
  exact hc

theorem Ends.isDigit_eq_false (h : Ends rest) {c : Char} (hc : rest.head? = some c) :
    c.isDigit = false := by
  have := h c hc
  simp only [continues, Bool.or_eq_false_iff] at this
  exact this.1.1.1

/-- Digits are read up to the first character that is none. -/
theorem Digits.digits_append {ds : List Nat} (h : Digits ds cs)
    (hrest : ∀ c, rest.head? = some c → c.isDigit = false) : digits (cs ++ rest) = (ds, rest) := by
  obtain ⟨-, hcs⟩ := h
  have hstop : rest.takeWhile Char.isDigit = [] ∧ rest.dropWhile Char.isDigit = rest := by
    cases rest with
    | nil => exact ⟨rfl, rfl⟩
    | cons c rest => simp [hrest c rfl]
  rw [digits, List.takeWhile_append_of_pos hcs, List.dropWhile_append_of_pos hcs, hstop.1,
    hstop.2, List.append_nil]

theorem Digits.ne_nil {ds : List Nat} (h : Digits ds cs) : ds ≠ [] := by
  obtain ⟨hne, -⟩ := h
  simpa using hne

theorem Digits.head_isDigit {ds : List Nat} (h : Digits ds cs) :
    ∃ c tail, cs = c :: tail ∧ c.isDigit = true := by
  obtain ⟨hne, hcs⟩ := h
  obtain ⟨c, tail, rfl⟩ := List.exists_cons_of_ne_nil hne
  exact ⟨c, tail, rfl, hcs c List.mem_cons_self⟩

/-- A fraction is read up to its last digit. -/
theorem Fraction.fraction?_append {ds : List Nat} (h : Fraction ds cs)
    (hrest : ∀ c, rest.head? = some c → c.isDigit = false ∧ c ≠ '.') :
    fraction? (cs ++ rest) = some (ds, rest) := by
  cases h with
  | absent =>
      cases rest with
      | nil => rfl
      | cons c rest =>
          have hpoint := (hrest c rfl).2
          rw [List.nil_append, fraction?]
          intro tail he
          exact hpoint (List.cons.inj he).1
  | present hds =>
      rw [List.cons_append, fraction?, hds.digits_append fun c hc => (hrest c hc).1]
      cases ds with
      | nil => exact (hds.ne_nil rfl).elim
      | cons d ds => rfl

/-- An exponent is read up to its last digit. -/
theorem Exponent.exponent?_append {e : Option Int} (h : Exponent e cs) (hrest : Ends rest) :
    exponent? (cs ++ rest) = some (e, rest) := by
  have hdigits : ∀ {ds : List Nat} {es : List Char}, Digits ds es →
      digits (es ++ rest) = (ds, rest) :=
    fun hds => hds.digits_append fun _ => hrest.isDigit_eq_false
  cases h with
  | absent =>
      cases rest with
      | nil => rfl
      | cons c rest =>
          have hc := hrest c rfl
          simp only [continues, Bool.or_eq_false_iff, beq_eq_false_iff_ne] at hc
          rw [List.nil_append, exponent?, if_neg (by simp [hc])]
  | @unsigned mark ds es hmark hds =>
      obtain ⟨c, tail, rfl, hc⟩ := hds.head_isDigit
      have hsign : c ≠ '-' ∧ c ≠ '+' := by
        constructor <;>
          · rintro rfl
            revert hc
            decide
      have hread := hdigits hds
      rw [List.cons_append] at hread
      simp only [List.cons_append, exponent?, hmark, if_true, List.head?_cons, Option.some.injEq,
        hsign, or_self, if_false, hread]
      cases ds with
      | nil => exact (hds.ne_nil rfl).elim
      | cons d ds => rfl
  | @plus mark ds es hmark hds =>
      have hread := hdigits hds
      simp [exponent?, hmark, hread, hds.ne_nil]
  | @minus mark ds es hmark hds =>
      have hread := hdigits hds
      simp [exponent?, hmark, hread, hds.ne_nil]

/-- A number after its sign. -/
def unsigned? (negative : Bool) (text : List Char) : Option (NumberText × List Char) := do
  let (whole, rest) := digits text
  if whole = [] ∨ (whole.head? = some 0 ∧ 1 < whole.length) then none
  let (fraction, rest) ← fraction? rest
  let (exponent, rest) ← exponent? rest
  return (⟨negative, whole, fraction, exponent⟩, rest)

theorem number?_minus (text : List Char) : number? ('-' :: text) = unsigned? true text := by
  simp [number?, unsigned?]

theorem number?_of_head_ne {text : List Char} (h : text.head? ≠ some '-') :
    number? text = unsigned? false text := by
  simp [number?, unsigned?, h]

/-- When a number after its sign is read. -/
theorem unsigned?_eq_some_iff {negative : Bool} {text : List Char} {n : NumberText} :
    unsigned? negative text = some (n, rest) ↔
      ((digits text).1 ≠ [] ∧ ¬ ((digits text).1.head? = some 0 ∧ 1 < (digits text).1.length)) ∧
        ∃ fraction after exponent, fraction? (digits text).2 = some (fraction, after) ∧
          exponent? after = some (exponent, rest) ∧
          n = ⟨negative, (digits text).1, fraction, exponent⟩ := by
  unfold unsigned?
  rw [← not_or]
  by_cases hwhole : (digits text).1 = [] ∨
      ((digits text).1.head? = some 0 ∧ 1 < (digits text).1.length)
  · simp [hwhole]
  · simp [hwhole, Option.bind_eq_some_iff, eq_comm (a := n)]

/-- A number is read up to where it ends. -/
theorem Numeral.number?_append {n : NumberText} (h : Numeral n cs) (hrest : Ends rest) :
    number? (cs ++ rest) = some (n, rest) := by
  obtain @⟨negative, whole, fraction, exponent, ws, fs, es, hwhole, hzero, hfraction,
    hexponent⟩ := h
  have hnext : ∀ c, (es ++ rest).head? = some c → c.isDigit = false ∧ c ≠ '.' := by
    have hmark : ∀ {mark : Char}, mark = 'e' ∨ mark = 'E' → mark.isDigit = false ∧ mark ≠ '.' := by
      rintro mark (rfl | rfl) <;> decide
    intro c hc
    cases hexponent with
    | absent =>
        have hcontinues := hrest c hc
        simp only [continues, Bool.or_eq_false_iff, beq_eq_false_iff_ne] at hcontinues
        exact hcontinues.1.1
    | unsigned hm _ | plus hm _ | minus hm _ => exact Option.some.inj hc ▸ hmark hm
  have hafter : ∀ c, (fs ++ (es ++ rest)).head? = some c → c.isDigit = false := by
    intro c hc
    cases hfraction with
    | absent => exact (hnext c hc).1
    | present _ => exact Option.some.inj hc ▸ rfl
  have hdigits := hwhole.digits_append hafter
  have hunsigned : unsigned? negative (ws ++ (fs ++ (es ++ rest))) =
      some (⟨negative, whole, fraction, exponent⟩, rest) := by
    rw [unsigned?_eq_some_iff, hdigits]
    exact ⟨⟨hwhole.ne_nil, hzero⟩, fraction, _, exponent, hfraction.fraction?_append hnext,
      hexponent.exponent?_append hrest, rfl⟩
  rw [List.append_assoc, List.append_assoc, List.append_assoc]
  cases negative with
  | true => exact (number?_minus _).trans hunsigned
  | false =>
      obtain ⟨c, tail, rfl, hc⟩ := hwhole.head_isDigit
      have hminus : c ≠ '-' := by
        rintro rfl
        revert hc
        decide
      exact (number?_of_head_ne (by simpa using hminus)).trans hunsigned

/-- A text writes one number at most. -/
theorem Numeral.unique {m n : NumberText} (hm : Numeral m cs) (hn : Numeral n cs) : m = n := by
  have hends : Ends [] := fun c hc => by cases hc
  have hread := (hm.number?_append hends).symm.trans (hn.number?_append hends)
  exact congrArg Prod.fst (Option.some.inj hread)

/-! What is read as a number is written as one. -/

theorem eq_append_of_digits {text : List Char} {ds : List Nat} (h : digits text = (ds, rest))
    (hne : ds ≠ []) : ∃ cs, text = cs ++ rest ∧ Digits ds cs := by
  obtain ⟨rfl, rfl⟩ := Prod.mk.inj h
  refine ⟨text.takeWhile Char.isDigit, List.takeWhile_append_dropWhile.symm, ?_⟩
  exact Digits.mk (by simpa using hne) (List.all_eq_true.mp List.all_takeWhile)

theorem eq_append_of_fraction? {text : List Char} {ds : List Nat}
    (h : fraction? text = some (ds, rest)) : ∃ cs, text = cs ++ rest ∧ Fraction ds cs := by
  unfold fraction? at h
  split at h
  · next tail =>
    split at h
    · cases h
    · next hsome =>
      have hdigits : digits tail = (ds, rest) := Option.some.inj h
      have hne : ds ≠ [] := by
        rintro rfl
        exact hsome rest hdigits
      obtain ⟨cs, rfl, hcs⟩ := eq_append_of_digits hdigits hne
      exact ⟨'.' :: cs, rfl, Fraction.present hcs⟩
  · obtain ⟨rfl, rfl⟩ := Prod.mk.inj (Option.some.inj h)
    exact ⟨[], rfl, Fraction.absent⟩

/-- The digits of an exponent after its mark and sign. -/
private theorem eq_append_of_power {text : List Char} {e : Option Int} {f : List Nat → Int}
    (h : (match digits text with
      | ([], _) => none
      | (ds, after) => some (some (f ds), after)) = some (e, rest)) :
    ∃ ds cs, text = cs ++ rest ∧ Digits ds cs ∧ e = some (f ds) := by
  split at h
  · cases h
  · next ds after hsome hdigits =>
    obtain ⟨rfl, rfl⟩ := Prod.mk.inj (Option.some.inj h)
    obtain ⟨cs, hcs, hds⟩ := eq_append_of_digits hdigits hsome
    exact ⟨ds, cs, hcs, hds, rfl⟩

theorem eq_append_of_exponent? {text : List Char} {e : Option Int}
    (h : exponent? text = some (e, rest)) : ∃ cs, text = cs ++ rest ∧ Exponent e cs := by
  cases text with
  | nil =>
      obtain ⟨rfl, rfl⟩ := Prod.mk.inj (Option.some.inj h)
      exact ⟨[], rfl, Exponent.absent⟩
  | cons mark tail =>
      by_cases hmark : mark = 'e' ∨ mark = 'E'
      · by_cases hminus : tail.head? = some '-'
        · obtain ⟨tail, rfl⟩ := List.head?_eq_some_iff.mp hminus
          simp only [exponent?, hmark, hminus, if_true, true_or, List.tail_cons] at h
          obtain ⟨ds, cs, rfl, hds, rfl⟩ := eq_append_of_power h
          exact ⟨mark :: '-' :: cs, rfl, Exponent.minus hmark hds⟩
        · by_cases hplus : tail.head? = some '+'
          · obtain ⟨tail, rfl⟩ := List.head?_eq_some_iff.mp hplus
            simp only [exponent?, hmark, hplus, if_true, or_true, List.tail_cons] at h
            obtain ⟨ds, cs, rfl, hds, rfl⟩ := eq_append_of_power h
            exact ⟨mark :: '+' :: cs, rfl, Exponent.plus hmark hds⟩
          · simp only [exponent?, hmark, hminus, hplus, if_true, if_false, or_self] at h
            obtain ⟨ds, cs, rfl, hds, rfl⟩ := eq_append_of_power h
            exact ⟨mark :: cs, rfl, Exponent.unsigned hmark hds⟩
      · rw [exponent?, if_neg hmark] at h
        obtain ⟨rfl, rfl⟩ := Prod.mk.inj (Option.some.inj h)
        exact ⟨[], rfl, Exponent.absent⟩

/-- What is read as a number is the text of one. -/
theorem eq_append_of_number? {text : List Char} {n : NumberText}
    (h : number? text = some (n, rest)) : ∃ cs, text = cs ++ rest ∧ Numeral n cs := by
  have hunsigned : ∀ (negative : Bool) (tail : List Char),
      unsigned? negative tail = some (n, rest) →
        ∃ cs, (if negative then ['-'] else []) ++ tail = cs ++ rest ∧ Numeral n cs := by
    intro negative tail h
    obtain ⟨⟨hne, hzero⟩, fraction, after, exponent, hfraction, hexponent, rfl⟩ :=
      unsigned?_eq_some_iff.mp h
    have hdigits : digits tail = ((digits tail).1, (digits tail).2) := rfl
    obtain ⟨ws, hws, hwhole⟩ := eq_append_of_digits hdigits hne
    obtain ⟨fs, hfs, hf⟩ := eq_append_of_fraction? hfraction
    obtain ⟨es, hes, he⟩ := eq_append_of_exponent? hexponent
    refine ⟨_, ?_, Numeral.mk hwhole hzero hf he⟩
    rw [List.append_assoc, List.append_assoc, List.append_assoc, ← hes, ← hfs]
    exact congrArg (_ ++ ·) hws
  by_cases hminus : text.head? = some '-'
  · obtain ⟨tail, rfl⟩ := List.head?_eq_some_iff.mp hminus
    exact hunsigned true tail ((number?_minus tail).symm.trans h)
  · exact hunsigned false text ((number?_of_head_ne hminus).symm.trans h)

end TypedSyntax.Json
