import Mathlib.Data.List.Forall2
import TypedSyntax.Proofs.Python.Lexer
import TypedSyntax.Proofs.Python.Written
import TypedSyntax.Python.Writer

/-!
# Spelled tokens

Which tokens a text has, whatever follows it that cannot continue the last
one. Texts that begin with such a character may follow other texts.
-/

namespace TypedSyntax.Python

/-- The text has the tokens before anything that bounds the last one. -/
def Spells (s : String) (ts : List Token) : Prop :=
  ∀ rest us, Bounded rest → Lexes rest us → Lexes (s.toList ++ rest) (ts ++ us)

/-- The text has the tokens and bounds what comes before it. -/
def Trails (s : String) (ts : List Token) : Prop :=
  ∀ rest us, Bounded rest → Lexes rest us →
    Bounded (s.toList ++ rest) ∧ Lexes (s.toList ++ rest) (ts ++ us)

variable {s s' : String} {ts us : List Token}

theorem Spells.lex_eq (h : Spells s ts) : lex s = some ts := by
  have hlexes := h [] [] bounded_nil lexes_nil
  rw [List.append_nil, List.append_nil] at hlexes
  exact hlexes _ (Nat.le_refl _)

/-- Tokens follow one another where the second text bounds the first. -/
theorem Spells.append (h : Spells s ts) (h' : Trails s' us) : Spells (s ++ s') (ts ++ us) := by
  intro rest vs hrest hlexes
  obtain ⟨hbounded, htail⟩ := h' rest vs hrest hlexes
  rw [String.toList_append, List.append_assoc, List.append_assoc]
  exact h _ _ hbounded htail

theorem trails_nil : Trails "" [] := by
  intro rest us hrest hlexes
  exact ⟨hrest, hlexes⟩

theorem Trails.append (h : Trails s ts) (h' : Trails s' us) : Trails (s ++ s') (ts ++ us) := by
  intro rest vs hrest hlexes
  obtain ⟨hbounded, htail⟩ := h' rest vs hrest hlexes
  rw [String.toList_append, List.append_assoc, List.append_assoc]
  exact h _ _ hbounded htail

/-! ## Single tokens -/

theorem isName_of_isPlain {name : String} (h : isPlain name = true) : isName name = true :=
  (Bool.and_eq_true_iff.mp h).1

theorem spells_word {name : String} (h : isName name = true) : Spells name [.word name] := by
  intro rest us hrest hlexes
  exact hlexes.word h (hrest.stop (by decide))

theorem spells_number (h : Unsigned s.toList) : Spells s [.number s] := by
  intro rest us hrest hlexes
  have hnumber := hlexes.number h hrest
  rw [String.ofList_toList] at hnumber
  exact hnumber

/-- A quoted text is one token. -/
theorem spells_quote (text : String) : Spells (quote text) [.text (quote text)] := by
  intro rest us _ hlexes
  exact hlexes.quote text

/-! ## Operations -/

/-- The symbol of an operation is a token of its own. -/
theorem Spells.unary (op : UnaryOperator) (h : Spells s ts) :
    Spells ((if op = .not then "not " else op.token) ++ s) (op.symbol :: ts) := by
  intro rest us hrest hlexes
  have hoperand := h rest us hrest hlexes
  cases op with
  | neg | pos | bitNot =>
      rw [String.toList_append, List.append_assoc]
      exact hoperand.single (by decide)
  | not =>
      have hnot : Lexes ("not".toList ++ ' ' :: (s.toList ++ rest)) (.word "not" :: (ts ++ us)) :=
        hoperand.space.word (by decide) (stop_cons (by decide))
      rw [String.toList_append, List.append_assoc]
      exact hnot

/-- A symbol between spaces is a token of its own. -/
theorem Trails.binary (op : BinaryOperator) (h : Spells s ts) :
    Trails (" " ++ (if op = .xor then "^" else op.token) ++ " " ++ s) (op.symbol :: ts) := by
  intro rest us hrest hlexes
  have hsymbol := ((h rest us hrest hlexes).symbol op).space
  have hlist : (" " ++ (if op = .xor then "^" else op.token) ++ " " ++ s).toList ++ rest =
      ' ' :: ((if op = .xor then "^" else op.token).toList ++ ' ' :: (s.toList ++ rest)) := by
    simp [String.toList_append]
  rw [hlist]
  constructor
  · exact bounded_cons (by decide)
  · exact hsymbol

/-! ## Lists -/

theorem Trails.space (h : Spells s ts) : Trails (" " ++ s) ts := by
  intro rest us hrest hlexes
  rw [String.toList_append, List.append_assoc]
  constructor
  · exact bounded_cons (by decide)
  · exact (h rest us hrest hlexes).space

/-- A text after a delimiter and a space. -/
theorem Trails.mark {c : Char} (h : Spells s ts) (hc : c ∈ singleMarks)
    (hbounded : c ∈ boundaries) :
    Trails (String.ofList [c, ' '] ++ s) (.mark (String.ofList [c]) :: ts) := by
  intro rest us hrest hlexes
  have hspaced := (h rest us hrest hlexes).space
  rw [String.toList_append, List.append_assoc, String.toList_ofList]
  constructor
  · exact bounded_cons hbounded
  · exact hspaced.single hc

theorem Trails.item (h : Spells s ts) : Trails (", " ++ s) (.comma :: ts) :=
  Trails.mark h (by decide) (by decide)

theorem Trails.value (h : Spells s ts) : Trails (": " ++ s) (.colon :: ts) :=
  Trails.mark h (by decide) (by decide)

theorem trails_comma : Trails "," [.comma] := by
  intro rest us hrest hlexes
  constructor
  · exact bounded_cons (by decide)
  · exact hlexes.single (by decide)

/-- A name before a space and an expression. -/
theorem Spells.keyword {name : String} (hname : isName name = true) (h : Spells s ts) :
    Spells (name ++ " " ++ s) (.word name :: ts) := by
  have hspelled := (spells_word hname).append (Trails.space h)
  rw [← String.append_assoc] at hspelled
  exact hspelled

theorem commaList_cons (s : String) (ss : List String) :
    commaList (s :: ss) = s ++ String.join (ss.map (", " ++ ·)) := by
  induction ss generalizing s with
  | nil => simp [commaList]
  | cons s' ss ih =>
      calc
        commaList (s :: s' :: ss) = s ++ ", " ++ commaList (s' :: ss) :=
          String.intercalate_cons_cons
        _ = s ++ ", " ++ (s' ++ String.join (ss.map (", " ++ ·))) := by rw [ih]
        _ = s ++ String.join ((s' :: ss).map (", " ++ ·)) := by
          simp only [List.map_cons, String.join_cons, String.append_assoc]

/-- Texts and the expressions that they spell. -/
def Spell (s : String) (e : Expr) : Prop :=
  Spells s (e.write .whole)

/-- Texts after commas have the tokens of further items. -/
theorem trails_further {ss : List String} {es : List Expr} (h : List.Forall₂ Spell ss es) :
    Trails (String.join (ss.map (", " ++ ·))) ((Expr.ofList es).write .further) := by
  induction h with
  | nil => exact trails_nil
  | cons hs _ ih =>
      rw [List.map_cons, String.join_cons]
      exact (Trails.item hs).append ih

theorem spells_nil : Spells "" [] :=
  fun _ _ _ hlexes => hlexes

/-- Texts between commas have the tokens of items. -/
theorem spells_commaList {ss : List String} {es : List Expr} (h : List.Forall₂ Spell ss es) :
    Spells (commaList ss) ((Expr.ofList es).write .first) := by
  cases h with
  | nil => exact spells_nil
  | cons hs hss =>
      rw [commaList_cons]
      exact hs.append (trails_further hss)

/-- Conditions after `if` have the tokens of filters. -/
theorem trails_filters {ss : List String} {es : List Expr} (h : List.Forall₂ Spell ss es) :
    Trails (String.join (ss.map (" if " ++ ·))) ((Expr.ofList es).write .filters) := by
  induction h with
  | nil => exact trails_nil
  | @cons s _ ss _ hs _ ih =>
      have hif : Trails (" " ++ ("if" ++ " " ++ s)) _ :=
        Trails.space (Spells.keyword (by decide) hs)
      rw [List.map_cons, String.join_cons]
      rw [← String.append_assoc] at hif
      exact hif.append ih

/-- Texts and the clauses that they spell. -/
def SpellClause (s : String) (e : Expr) : Prop :=
  ∃ isAsync target iterable filters, e = .clause isAsync target iterable filters ∧
    Spells s (clauseHead isAsync target ++ (iterable.write .whole ++ filters.write .filters))

/-- Texts of clauses have the tokens of clauses. -/
theorem trails_clauses {ss : List String} {es : List Expr} (h : List.Forall₂ SpellClause ss es) :
    Trails (String.join (ss.map (" " ++ ·))) ((Expr.ofList es).write .clauses) := by
  induction h with
  | nil => exact trails_nil
  | cons hs _ ih =>
      obtain ⟨isAsync, target, iterable, filters, rfl, hs⟩ := hs
      have hclauses := (Trails.space hs).append ih
      rw [List.map_cons, String.join_cons]
      simpa [Expr.write] using hclauses

/-! ## Brackets -/

def Bracket.wrap : Bracket → String → String
  | .round, s => "(" ++ s ++ ")"
  | .square, s => "[" ++ s ++ "]"
  | .curly, s => "\x7b" ++ s ++ "\x7d"

theorem Spells.between {c d : Char} (h : Spells s ts) (hc : c ∈ singleMarks)
    (hd : d ∈ singleMarks) (hbounded : d ∈ boundaries) :
    Spells (String.ofList [c] ++ s ++ String.ofList [d])
      (.mark (String.ofList [c]) :: ts ++ [.mark (String.ofList [d])]) := by
  intro rest us _ hlexes
  have hinside := h _ _ (bounded_cons hbounded) (hlexes.single hd)
  have houtside := hinside.single hc
  simpa [String.toList_append] using houtside

/-- Brackets around a text are brackets around its tokens. -/
theorem Spells.wrap (h : Spells s ts) (b : Bracket) : Spells (b.wrap s) (b.around ts) := by
  cases b <;> exact h.between (by decide) (by decide) (by decide)

/-- A name before a text in parentheses has the tokens of a call. -/
theorem Spells.call {name : String} (hname : isName name = true) (h : Spells s ts) :
    Spells (name ++ "(" ++ s ++ ")") (.word name :: Bracket.round.around ts) := by
  intro rest us hrest hlexes
  have hround : Lexes ('(' :: (s.toList ++ ')' :: rest)) (Bracket.round.around ts ++ us) := by
    simpa [Bracket.wrap, String.toList_append] using h.wrap .round rest us hrest hlexes
  have hcall := hround.word hname (stop_cons (by decide))
  simpa [String.toList_append] using hcall

end TypedSyntax.Python
