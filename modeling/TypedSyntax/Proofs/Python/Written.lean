import TypedSyntax.Proofs.Python.Completeness

/-!
# Written expressions

An expression with the parentheses that are written. It reads back as the
expression without them exactly when every operand binds as tightly as its
place asks. For the converse, tokens that are no round bracket are counted: an
expression determines their number, so that an operator between two operands
has only one place in the text.
-/

namespace TypedSyntax.Python

/-- The tokens of a bracket around some tokens. -/
def Bracket.around (b : Bracket) (ts : List Token) : List Token :=
  b.opening :: ts ++ [b.closing]

/-- What a display has after its items. A tuple of one item has a comma. -/
def Bracket.ending : Bracket → Expr → List Token
  | .round, .cons _ .none => [.comma]
  | _, _ => []

/-- Where an expression or a list of expressions stands. -/
inductive Place where
  | whole
  | first
  | further
  | clauses
  | filters

namespace Expr

/-- The tokens of a written expression. -/
def write : Place → Expr → List Token
  | .whole, .atom tok => [tok]
  | .whole, .group e => Bracket.round.around (write .whole e)
  | .whole, .unary op e => op.symbol :: write .whole e
  | .whole, .binary op a b => write .whole a ++ op.symbol :: write .whole b
  | .whole, .chained op a b => write .whole a ++ op.symbol :: write .whole b
  | .whole, .member e name => write .whole e ++ [.dot, .word name]
  | .whole, .call f args => write .whole f ++ Bracket.round.around (write .first args)
  | .whole, .display b items => b.around (write .first items ++ b.ending items)
  | .whole, .comprehension b e cs => b.around (write .whole e ++ write .clauses cs)
  | .whole, .pair k v => write .whole k ++ .colon :: write .whole v
  | .first, .cons e es => write .whole e ++ write .further es
  | .further, .cons e es => .comma :: write .whole e ++ write .further es
  | .clauses, .cons (.clause isAsync target e fs) cs =>
    clauseHead isAsync target ++ (write .whole e ++ (write .filters fs ++ write .clauses cs))
  | .filters, .cons e es => .word "if" :: write .whole e ++ write .filters es
  | _, _ => []

/-- The expression without written parentheses. -/
def bare : Expr → Expr
  | .atom tok => .atom tok
  | .group e => e.bare
  | .unary op e => .unary op e.bare
  | .binary op a b => .binary op a.bare b.bare
  | .chained op a b => .chained op a.bare b.bare
  | .member e name => .member e.bare name
  | .call f args => .call f.bare args.bare
  | .display b items => .display b items.bare
  | .comprehension b e cs => .comprehension b e.bare cs.bare
  | .pair k v => .pair k.bare v.bare
  | .clause isAsync target e fs => .clause isAsync target e.bare fs.bare
  | .none => .none
  | .cons e es => .cons e.bare es.bare

/-- How tightly a written expression binds. -/
def level : Expr → Nat
  | .unary op _ => op.level
  | .binary op _ _ => op.level
  | _ => 10

/-- Whether every operand binds as tightly as its place asks. -/
def tight : Expr → Bool
  | .unary op e => decide (op.level ≤ e.level) && e.tight
  | .binary op a b =>
    decide (op.left ≤ a.level) && decide (op.right ≤ b.level) && (a.tight && b.tight)
  | .chained _ a b | .pair a b | .cons a b | .call a b => a.tight && b.tight
  | .comprehension _ e cs => e.tight && cs.tight
  | .clause _ _ e fs => e.tight && fs.tight
  | .group e | .member e _ | .display _ e => e.tight
  | .atom _ | .none => true

def isOperation : Expr → Bool
  | .unary .. | .binary .. => true
  | _ => false

end Expr

/-- A name with dots. -/
inductive Dotted : Expr → Prop
  | name {w} : Token.isAtom (.word w) = true → Dotted (.atom (.word w))
  | member {e w} : isPlain w = true → Dotted e → Dotted (.member e w)

/-- What a list of expressions is: items, which are entries of a mapping or
not, clauses or filters. -/
inductive Role where
  | whole
  | items (entry : Bool)
  | clauses
  | filters

/-- Written expressions that have a text, with parentheses only around
operations. -/
inductive Shaped : Role → Expr → Prop
  | atom {tok} : tok.isAtom = true → Shaped .whole (.atom tok)
  | group {e} : e.isOperation = true → Shaped .whole e → Shaped .whole (.group e)
  | unary {op e} : Shaped .whole e → Shaped .whole (.unary op e)
  | binary {op a b} : Shaped .whole a → Shaped .whole b → Shaped .whole (.binary op a b)
  | call {f args} : Dotted f → Shaped (.items false) args → Shaped .whole (.call f args)
  | display {b items} : Shaped (.items false) items → Shaped .whole (.display b items)
  | mapping {items} : Shaped (.items true) items → Shaped .whole (.display .curly items)
  | comprehension {b e c cs} : Shaped .whole e → Shaped .clauses (.cons c cs) →
      Shaped .whole (.comprehension b e (.cons c cs))
  | noItems {entry} : Shaped (.items entry) .none
  | item {e es} : Shaped .whole e → Shaped (.items false) es → Shaped (.items false) (.cons e es)
  | entry {k v es} : Shaped .whole k → Shaped .whole v → Shaped (.items true) es →
      Shaped (.items true) (.cons (.pair k v) es)
  | noClauses : Shaped .clauses .none
  | clause {isAsync target e fs cs} : isPlain target = true → Shaped .whole e →
      Shaped .filters fs → Shaped .clauses cs →
      Shaped .clauses (.cons (.clause isAsync target e fs) cs)
  | noFilters : Shaped .filters .none
  | filter {e es} : Shaped .whole e → Shaped .filters es → Shaped .filters (.cons e es)

/-! ## Tokens that are no round bracket -/

def Token.isRound (tok : Token) : Bool :=
  decide (tok = Bracket.round.opening) || decide (tok = Bracket.round.closing)

/-- The number of tokens that are no round bracket. -/
def solid (ts : List Token) : Nat :=
  ts.countP fun tok => !tok.isRound

@[simp] theorem solid_nil : solid [] = 0 := rfl

@[simp] theorem solid_cons (tok : Token) (ts : List Token) :
    solid (tok :: ts) = solid ts + if tok.isRound then 0 else 1 := by
  cases h : tok.isRound <;> simp [solid, h]

@[simp] theorem solid_append (ts us : List Token) : solid (ts ++ us) = solid ts + solid us := by
  simp [solid]

@[simp] theorem isRound_unary (op : UnaryOperator) : op.symbol.isRound = false := by
  cases op <;> decide

@[simp] theorem isRound_binary (op : BinaryOperator) : op.symbol.isRound = false := by
  cases op <;> decide

/-- Brackets around some tokens count unless they are round. -/
theorem solid_around (b : Bracket) (ts : List Token) :
    solid (b.around ts) = solid ts + solid [b.opening, b.closing] := by
  simp only [Bracket.around, solid_append, solid_cons, solid_nil]
  omega

/-- What follows does not begin with a round bracket. -/
def Apart (ts : List Token) : Prop :=
  ∀ tok, ts.head? = some tok → tok.isRound = false

theorem apart_nil : Apart [] := by
  intro tok htok
  cases htok

theorem apart_cons {tok : Token} {ts : List Token} (h : tok.isRound = false) :
    Apart (tok :: ts) := by
  intro t ht
  obtain rfl := Option.some.inj ht
  exact h

theorem Apart.append {ts us : List Token} (ht : Apart ts) (hu : Apart us) :
    Apart (ts ++ us) := by
  cases ts with
  | nil => exact hu
  | cons tok ts => exact apart_cons (ht tok rfl)

/-- A place between tokens is determined by the number of tokens before it that
are no round bracket, unless a round bracket follows it. -/
theorem split_unique {ts us vs ws : List Token} (h : ts ++ us = vs ++ ws)
    (hsolid : solid ts = solid vs) (hus : Apart us) (hws : Apart ws) : ts = vs ∧ us = ws := by
  induction ts generalizing vs with
  | nil =>
      cases vs with
      | nil => exact ⟨rfl, h⟩
      | cons v vs =>
          simp only [List.nil_append, List.cons_append] at h
          subst h
          have hround := hus v rfl
          simp [hround] at hsolid
  | cons t ts ih =>
      cases vs with
      | nil =>
          simp only [List.nil_append, List.cons_append] at h
          subst h
          have hround := hws t rfl
          simp [hround] at hsolid
      | cons v vs =>
          simp only [List.cons_append, List.cons.injEq] at h
          obtain ⟨rfl, h⟩ := h
          obtain ⟨rfl, rfl⟩ := ih h (by simpa using hsolid)
          exact ⟨rfl, rfl⟩

/-! ## Matching round brackets -/

/-- The nesting depth after some tokens, if no bracket is closed too often. -/
def depth : Nat → List Token → Option Nat
  | n, [] => some n
  | n, tok :: ts =>
    if tok = Bracket.round.opening then depth (n + 1) ts
    else if tok = Bracket.round.closing then
      match n with
      | 0 => none
      | n + 1 => depth n ts
    else depth n ts

/-- The depth after more tokens goes on from the depth after the first ones. -/
theorem depth_append (n : Nat) (ts us : List Token) :
    depth n (ts ++ us) = (depth n ts).bind fun m => depth m us := by
  induction ts generalizing n with
  | nil => rfl
  | cons tok ts ih =>
      simp only [List.cons_append, depth]
      split
      · exact ih _
      split
      · cases n with
        | zero => rfl
        | succ n => exact ih _
      · exact ih _

/-- Tokens that close no bracket too often do so at any depth. -/
theorem depth_succ {n m : Nat} {ts : List Token} (h : depth n ts = some m) :
    depth (n + 1) ts = some (m + 1) := by
  induction ts generalizing n with
  | nil =>
      obtain rfl := Option.some.inj h
      rfl
  | cons tok ts ih =>
      simp only [depth] at h ⊢
      split at h
      · next ht =>
        rw [if_pos ht]
        exact ih h
      next hopening =>
      rw [if_neg hopening]
      split at h
      · next ht =>
        rw [if_pos ht]
        cases n with
        | zero => cases h
        | succ n => exact ih h
      · next hclosing =>
        rw [if_neg hclosing]
        exact ih h

/-- Every round bracket is closed. -/
def Balanced (ts : List Token) : Prop :=
  ∀ n, depth n ts = some n

theorem balanced_nil : Balanced [] := fun _ => rfl

/-- Balanced tokens are balanced together. -/
theorem Balanced.append {ts us : List Token} (ht : Balanced ts) (hu : Balanced us) :
    Balanced (ts ++ us) := by
  intro n
  rw [depth_append, ht n]
  exact hu n

theorem balanced_cons {tok : Token} {ts : List Token} (htok : tok.isRound = false)
    (ht : Balanced ts) : Balanced (tok :: ts) := by
  intro n
  simp only [Token.isRound, Bool.or_eq_false_iff, decide_eq_false_iff_not] at htok
  simp only [depth, if_neg htok.1, if_neg htok.2]
  exact ht n

/-- Brackets around balanced tokens are balanced. -/
theorem Balanced.around {ts : List Token} (h : Balanced ts) (b : Bracket) :
    Balanced (b.around ts) := by
  cases b with
  | round =>
      intro n
      have hopened : depth n (Bracket.round.around ts) =
          depth (n + 1) (ts ++ [Bracket.round.closing]) := rfl
      rw [hopened, depth_append, h (n + 1)]
      rfl
  | square | curly =>
      exact balanced_cons (by decide) (h.append (balanced_cons (by decide) balanced_nil))

/-- Matching round brackets around some tokens do not come apart. -/
theorem around_ne_append {ts us vs : List Token} {tok : Token} (hts : Balanced ts)
    (hus : Balanced us) (htok : tok.isRound = false) :
    Bracket.round.around ts ≠ us ++ tok :: vs := by
  intro h
  cases us with
  | nil =>
      obtain ⟨rfl, -⟩ := List.cons.inj h
      exact Bool.noConfusion htok
  | cons u us =>
      obtain ⟨rfl, htail⟩ := List.cons.inj h
      have hinside : ∃ ws, ts = us ++ ws := by
        rcases List.eq_nil_or_concat vs with rfl | ⟨ws, w, rfl⟩
        · exact ⟨[], by simpa using (List.append_inj' htail rfl).1⟩
        · have hsplit : ts ++ [Bracket.round.closing] = (us ++ tok :: ws) ++ [w] := by
            simpa using htail
          exact ⟨tok :: ws, (List.append_inj' hsplit rfl).1⟩
      obtain ⟨ws, rfl⟩ := hinside
      have hclosed : depth 1 us = some 0 := hus 0
      have hall := hts 0
      rw [depth_append] at hall
      obtain ⟨m, hm, -⟩ := Option.bind_eq_some_iff.mp hall
      rw [depth_succ hm] at hclosed
      cases hclosed

end TypedSyntax.Python
