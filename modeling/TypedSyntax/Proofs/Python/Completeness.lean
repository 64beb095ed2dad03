import TypedSyntax.Proofs.Python.Parser

/-!
# Completeness of the parser

With fuel for three calls per token the parser reads every derived expression
back, whatever follows it. The claim for an expression is about the parser's
state when it has read the expression, so that the operators after it may
continue it.
-/

namespace TypedSyntax.Python

/-- What may follow an expression of a level: an operator that takes it as its
left operand, or no operator. -/
def Follows (l : Nat) (rest : List Token) : Prop :=
  ∀ tok, rest.head? = some tok →
    (∀ op, tok.binary? = some op → op.left ≤ l) ∧
      (tok = Bracket.round.opening ∨ tok = .dot → 10 ≤ l)

/-- What may follow an open chain: a further comparison too. -/
def FollowsChain (rest : List Token) : Prop :=
  ∀ tok, rest.head? = some tok →
    (∀ op, tok.binary? = some op → op.isComparison = true ∨ op.left ≤ 4) ∧
      tok ≠ Bracket.round.opening ∧ tok ≠ .dot

/-- Nothing follows that could continue an expression. -/
def Ends (rest : List Token) : Prop :=
  ∀ tok, rest.head? = some tok →
    tok.binary? = none ∧ tok ≠ Bracket.round.opening ∧ tok ≠ .dot

/-- Where an expression ends, it may end at every level. -/
theorem Ends.follows {rest : List Token} (h : Ends rest) (l : Nat) : Follows l rest := by
  intro tok htok
  obtain ⟨hbinary, hopening, hdot⟩ := h tok htok
  refine ⟨fun op hop => ?_, ?_⟩
  · rw [hbinary] at hop
    cases hop
  · rintro (rfl | rfl)
    · exact (hopening rfl).elim
    · exact (hdot rfl).elim

theorem Ends.stops {rest : List Token} (h : Ends rest) (l : Nat) : Stops l rest := by
  intro tok htok
  obtain ⟨hbinary, hopening, hdot⟩ := h tok htok
  refine ⟨fun op hop => ?_, hopening, hdot⟩
  rw [hbinary] at hop
  cases hop

theorem ends_nil : Ends [] := by
  intro tok htok
  cases htok

theorem ends_cons {tok : Token} {rest : List Token} (hbinary : tok.binary? = none)
    (hopening : tok ≠ Bracket.round.opening) (hdot : tok ≠ .dot) : Ends (tok :: rest) := by
  intro t ht
  obtain rfl := Option.some.inj ht
  exact ⟨hbinary, hopening, hdot⟩

theorem ends_of_closing {b : Bracket} {rest : List Token}
    (h : rest.head? = some b.closing) : Ends rest := by
  obtain ⟨tail, rfl⟩ := List.head?_eq_some_iff.mp h
  cases b <;> exact ends_cons (by decide) (by decide) (by decide)

/-- A binary operator may follow its left operand. -/
theorem follows_symbol (op : BinaryOperator) (rest : List Token) :
    Follows op.left (op.symbol :: rest) := by
  intro tok htok
  obtain rfl := Option.some.inj htok
  constructor
  · intro next hnext
    rw [Token.binary?_symbol] at hnext
    obtain rfl := Option.some.inj hnext
    exact Nat.le_refl _
  · intro h
    cases op <;> revert h <;> decide

theorem follows_trailer {tok : Token} {rest : List Token} (h : tok.binary? = none) :
    Follows 10 (tok :: rest) := by
  intro t ht
  obtain rfl := Option.some.inj ht
  refine ⟨fun op hop => ?_, fun _ => Nat.le_refl _⟩
  rw [h] at hop
  cases hop

/-- What may follow an operation may follow its right operand, and ends it. -/
theorem Follows.right {l : Nat} {op : BinaryOperator} {rest : List Token} (h : Follows l rest)
    (hl : l ≤ op.level) : Follows op.right rest ∧ Stops op.right rest := by
  have hnext : ∀ next : BinaryOperator, next.left ≤ op.level →
      next.left ≤ op.right ∧ next.level < op.right := by
    intro next hnext
    cases op <;> cases next <;> revert hnext <;> decide
  have hten : ¬ 10 ≤ l := by
    have hop : op.level ≤ 9 := by cases op <;> decide
    omega
  constructor
  · intro tok htok
    obtain ⟨hop, htrailer⟩ := h tok htok
    exact ⟨fun next hbinary => (hnext next (Nat.le_trans (hop next hbinary) hl)).1,
      fun ht => (hten (htrailer ht)).elim⟩
  · intro tok htok
    obtain ⟨hop, htrailer⟩ := h tok htok
    exact ⟨fun next hbinary => (hnext next (Nat.le_trans (hop next hbinary) hl)).2,
      fun ht => hten (htrailer (Or.inl ht)), fun ht => hten (htrailer (Or.inr ht))⟩

/-- What may follow a chain may follow its last operand, and ends it. -/
theorem FollowsChain.right {rest : List Token} (h : FollowsChain rest) :
    Follows 5 rest ∧ Stops 5 rest := by
  have hnext : ∀ op : BinaryOperator, op.isComparison = true ∨ op.left ≤ 4 →
      op.left ≤ 5 ∧ op.level < 5 := by
    intro op hop
    cases op <;> revert hop <;> decide
  constructor
  · intro tok htok
    obtain ⟨hop, hopening, hdot⟩ := h tok htok
    exact ⟨fun op hbinary => (hnext op (hop op hbinary)).1,
      fun ht => ht.elim (fun ht => (hopening ht).elim) fun ht => (hdot ht).elim⟩
  · intro tok htok
    obtain ⟨hop, hopening, hdot⟩ := h tok htok
    exact ⟨fun op hbinary => (hnext op (hop op hbinary)).2, hopening, hdot⟩

/-- What may follow an operation with a sign or negation ends its operand. -/
theorem Follows.operand {l : Nat} {op : UnaryOperator} {rest : List Token} (h : Follows l rest)
    (hl : l ≤ op.level) : Follows op.level rest ∧ Stops op.level rest := by
  have hnext : ∀ next : BinaryOperator, next.left ≤ op.level → next.level < op.level := by
    intro next hnext
    cases op <;> cases next <;> revert hnext <;> decide
  have hten : ¬ 10 ≤ l := by
    have hop : op.level ≤ 8 := by cases op <;> decide
    omega
  constructor
  · intro tok htok
    obtain ⟨hop, htrailer⟩ := h tok htok
    exact ⟨fun next hbinary => Nat.le_trans (hop next hbinary) hl,
      fun ht => (hten (htrailer ht)).elim⟩
  · intro tok htok
    obtain ⟨hop, htrailer⟩ := h tok htok
    exact ⟨fun next hbinary => hnext next (Nat.le_trans (hop next hbinary) hl),
      fun ht => hten (htrailer (Or.inl ht)), fun ht => hten (htrailer (Or.inr ht))⟩

/-- Climbing gives back an expression that the next token does not continue. -/
theorem climb_of_stops {l : Nat} {rest : List Token} (h : Stops l rest) (opened : Bool) (e : Expr)
    {m : Nat} (hm : 1 ≤ m) : climb m l opened e rest = some (e, rest) := by
  obtain ⟨n, rfl⟩ := Nat.exists_eq_add_of_le' hm
  cases rest with
  | nil => rfl
  | cons tok ts =>
      obtain ⟨hop, hopening, hdot⟩ := h tok rfl
      cases hbinary : tok.binary? with
      | none => simp [climb, hbinary, hopening, hdot]
      | some op => simp [climb, hbinary, Nat.not_le.mpr (hop op hbinary)]

/-- An open chain matters only for a comparison that comes next. -/
theorem climb_opened {rest : List Token}
    (h : ∀ tok, rest.head? = some tok → ∀ op, tok.binary? = some op → op.isComparison = false)
    (n l : Nat) (e : Expr) : climb n l true e rest = climb n l false e rest := by
  cases n with
  | zero => rfl
  | succ n =>
      cases rest with
      | nil => rfl
      | cons tok ts =>
          cases hbinary : tok.binary? with
          | none => simp [climb, hbinary]
          | some op => simp [climb, hbinary, extend, h tok rfl op hbinary]

/-! ## First tokens -/

/-- A token with which an expression may begin. -/
def Token.Begins (tok : Token) : Prop :=
  tok.unary?.isSome = true ∨ tok.bracket?.isSome = true ∨ tok.isAtom = true

theorem Token.Begins.not_closing {tok : Token} (h : tok.Begins) (b : Bracket) :
    tok ≠ b.closing := by
  rintro rfl
  cases b <;> revert h <;> unfold Begins <;> decide

/-- Whether a form is an expression. -/
def Form.isExpression : Form → Bool
  | .level _ | .chain | .item _ => true
  | _ => false

/-- An expression begins with a token that may begin one. -/
theorem Derives.begins {f : Form} {e : Expr} {ts : List Token} (h : Derives f e ts)
    (hf : f.isExpression = true) : ∃ tok rest, ts = tok :: rest ∧ tok.Begins := by
  induction h with
  | @atom l tok _ hatom => exact ⟨tok, [], rfl, Or.inr (Or.inr hatom)⟩
  | @bracket l b _ ts => exact ⟨b.opening, _, rfl, Or.inr (Or.inl (by simp))⟩
  | @unary l op _ ts => exact ⟨op.symbol, ts, rfl, Or.inl (by simp)⟩
  | binary _ _ _ _ ih | first _ _ _ ih | next _ _ _ ih =>
      obtain ⟨tok, rest, rfl, hbegins⟩ := ih rfl
      exact ⟨tok, _, rfl, hbegins⟩
  | comparison _ _ ih | plain _ ih => exact ih rfl
  | member _ _ _ ih | call _ _ _ ih | entry _ _ ih =>
      obtain ⟨tok, rest, rfl, hbegins⟩ := ih rfl
      exact ⟨tok, _, rfl, hbegins⟩
  | _ => cases hf

/-! ## What follows a list -/

/-- Further items begin with a comma, which ends the item before them. -/
theorem Derives.ends_more {entry : Bool} {es : Expr} {us rest : List Token}
    (h : Derives (.more entry) es us) (hrest : Ends rest) : Ends (us ++ rest) := by
  cases h with
  | noMore => exact hrest
  | more => exact ends_cons (by decide) (by decide) (by decide)

/-- Filters begin with a word, which ends the expression before them. -/
theorem Derives.ends_filters {fs : Expr} {us rest : List Token} (h : Derives .filters fs us)
    (hrest : Ends rest) : Ends (us ++ rest) := by
  cases h with
  | noFilters => exact hrest
  | filters => exact ends_cons (by decide) (by decide) (by decide)

/-- Clauses begin with a word, which ends the expression before them. -/
theorem Derives.ends_clauses {cs : Expr} {us rest : List Token} (h : Derives .clauses cs us)
    (hrest : Ends rest) : Ends (us ++ rest) := by
  cases h with
  | noClauses => exact hrest
  | @clauses isAsync =>
      cases isAsync <;> exact ends_cons (by decide) (by decide) (by decide)

/-- The head of a clause is read up to its iterable. -/
theorem clauseHead?_append {isAsync : Bool} {target : String} (h : isPlain target = true)
    (rest : List Token) :
    clauseHead? (clauseHead isAsync target ++ rest) = some (isAsync, target, rest) := by
  cases isAsync <;> simp [clauseHead, clauseHead?, expectName, expect, h]

theorem Derives.head?_clauses {cs : Expr} {us rest : List Token} (h : Derives .clauses cs us)
    (hrest : rest.head? ≠ some (.word "if")) : (us ++ rest).head? ≠ some (.word "if") := by
  cases h with
  | noClauses => exact hrest
  | @clauses isAsync => cases isAsync <;> simp [clauseHead]

theorem expect_eq_none {tok : Token} {ts : List Token} (h : ts.head? ≠ some tok) :
    expect tok ts = none := by
  cases ts with
  | nil => rfl
  | cons t ts =>
      have ht : t ≠ tok := by simpa using h
      simp [expect, ht]

theorem clauseHead?_eq_none {ts : List Token} (hfor : ts.head? ≠ some (.word "for"))
    (hasync : ts.head? ≠ some (.word "async")) : clauseHead? ts = none := by
  unfold clauseHead?
  split
  · simp at hasync
  · simp at hfor
  · rfl

/-! ## Reading derived expressions -/

/-- With enough fuel, the function reads some tokens as an expression and
stops before the rest. -/
def Reads (read : Nat → List Token → Option (Expr × List Token)) (fuel : Nat) (e : Expr)
    (us rest : List Token) : Prop :=
  ∀ m ≥ 3 * us.length + fuel, read m (us ++ rest) = some (e, rest)

/-- What it means that the parser reads a form back. -/
def Complete : Form → Expr → List Token → Prop
  | .level l, e, us => ∀ {k rest n x}, k ≤ l → Follows l rest →
      (∀ m ≥ n, climb m k false e rest = some x) →
      ∀ m ≥ n + 3 * us.length, parse m k (us ++ rest) = some x
  | .chain, e, us => ∀ {k rest n x}, k ≤ 4 → FollowsChain rest →
      (∀ m ≥ n, climb m k true e rest = some x) →
      ∀ m ≥ n + 3 * us.length, parse m k (us ++ rest) = some x
  | .item entry, e, us => ∀ {rest}, Ends rest → Reads (item · entry) 2 e us rest
  | .more entry, e, us => ∀ {rest}, Ends rest → rest.head? ≠ some .comma →
      Reads (more · entry) 1 e us rest
  | .contents b, e, us => ∀ {rest}, rest.head? = some b.closing → Reads (contents · b) 2 e us rest
  | .arguments, e, us => ∀ {rest}, rest.head? = some Bracket.round.closing →
      Reads arguments 2 e us rest
  | .clauses, e, us => ∀ {rest}, Ends rest → clauseHead? rest = none →
      rest.head? ≠ some (.word "if") → Reads clauses 1 e us rest
  | .filters, e, us => ∀ {rest}, Ends rest → rest.head? ≠ some (.word "if") →
      Reads filters 1 e us rest

/-- An expression that ends is read whole. -/
theorem Complete.parse_eq {l k : Nat} {e : Expr} {us rest : List Token}
    (h : Complete (.level l) e us) (hk : k ≤ l) (hfollows : Follows l rest)
    (hstops : Stops k rest) {m : Nat} (hm : 3 * us.length + 1 ≤ m) :
    parse m k (us ++ rest) = some (e, rest) :=
  h hk hfollows (fun _ hm => climb_of_stops hstops false e hm) m (by omega)

/-- An expression is read whole before anything that ends it. -/
theorem Complete.parse_eq_of_ends {l : Nat} {e : Expr} {us rest : List Token}
    (h : Complete (.level l) e us) (hrest : Ends rest) {m : Nat} (hm : 3 * us.length + 1 ≤ m) :
    parse m l (us ++ rest) = some (e, rest) :=
  h.parse_eq (Nat.le_refl l) (hrest.follows l) (hrest.stops l) hm

theorem expect_cons (tok : Token) (ts : List Token) : expect tok (tok :: ts) = some ts := by
  simp [expect]

theorem Token.unary?_of_isAtom {tok : Token} (h : tok.isAtom = true) : tok.unary? = none := by
  rw [unary?, List.find?_eq_none]
  intro op _ hop
  obtain rfl := of_decide_eq_true hop
  cases op <;> revert h <;> decide

theorem Token.bracket?_of_isAtom {tok : Token} (h : tok.isAtom = true) :
    tok.bracket? = none := by
  rw [bracket?, List.find?_eq_none]
  intro b _ hb
  obtain rfl := of_decide_eq_true hb
  cases b <;> revert h <;> decide

/-- A token that is an expression is read back. -/
theorem Complete.atom {l : Nat} {tok : Token} (hatom : tok.isAtom = true) :
    Complete (.level l) (.atom tok) [tok] := by
  intro k rest n x _ _ hclimb m hm
  simp only [List.length_singleton] at hm
  obtain ⟨m, rfl⟩ := Nat.exists_eq_add_of_le' (show 1 ≤ m by omega)
  simp only [List.singleton_append, parse, Token.unary?_of_isAtom hatom,
    Token.bracket?_of_isAtom hatom, hatom, if_true]
  exact hclimb m (by omega)

/-- What stands in brackets is read back at every level. -/
theorem Complete.bracket {l : Nat} {b : Bracket} {e : Expr} {ts : List Token}
    (hts : Complete (.contents b) e ts) :
    Complete (.level l) e (b.opening :: ts ++ [b.closing]) := by
  intro k rest n x _ _ hclimb m hm
  simp only [List.length_append, List.length_cons, List.length_nil] at hm
  obtain ⟨m, rfl⟩ := Nat.exists_eq_add_of_le' (show 1 ≤ m by omega)
  have hcontents : contents m b (ts ++ b.closing :: rest) = some (e, b.closing :: rest) :=
    hts rfl m (by omega)
  simp only [List.cons_append, List.append_assoc, List.nil_append, parse, Token.unary?_opening,
    Token.bracket?_opening, hcontents, Option.bind_eq_bind, Option.bind_some, expect_cons]
  exact hclimb m (by omega)

/-- An operation with one operand is read back up to its level. -/
theorem Complete.unary {l : Nat} {op : UnaryOperator} {e : Expr} {ts : List Token}
    (hl : l ≤ op.level) (hts : Complete (.level op.level) e ts) :
    Complete (.level l) (.unary op e) (op.symbol :: ts) := by
  intro k rest n x hk hfollows hclimb m hm
  simp only [List.length_cons] at hm
  obtain ⟨m, rfl⟩ := Nat.exists_eq_add_of_le' (show 1 ≤ m by omega)
  obtain ⟨hoperand, hstops⟩ := hfollows.operand hl
  have hparse := hts.parse_eq (Nat.le_refl _) hoperand hstops (m := m) (by omega)
  simp only [List.cons_append, parse, Token.unary?_symbol, Nat.le_trans hk hl, if_true, hparse,
    Option.bind_eq_bind, Option.bind_some]
  exact hclimb m (by omega)

/-- The step of `climb` over an operator and its right operand. -/
theorem climb_operator (opened : Bool) (a : Expr) {l n : Nat} {op : BinaryOperator} {b : Expr}
    {us rest : List Token} {x : Expr × List Token} (hl : l ≤ op.level)
    (hus : Complete (.level op.right) b us) (hfollows : Follows op.right rest)
    (hstops : Stops op.right rest)
    (hclimb : ∀ m ≥ n, climb m l op.isComparison (extend opened op a b) rest = some x) :
    ∀ m ≥ n + 3 * us.length + 2, climb m l opened a (op.symbol :: us ++ rest) = some x := by
  intro m hm
  obtain ⟨m, rfl⟩ := Nat.exists_eq_add_of_le' (show 1 ≤ m by omega)
  have hparse := hus.parse_eq (Nat.le_refl _) hfollows hstops (m := m) (by omega)
  simp only [List.cons_append, climb, Token.binary?_symbol, hl, if_true, hparse,
    Option.bind_eq_bind, Option.bind_some]
  exact hclimb m (by omega)

/-- An operation is read back up to its level, if its operands are read back at theirs. -/
theorem Complete.binary {l : Nat} {op : BinaryOperator} {a b : Expr} {ts us : List Token}
    (hl : l ≤ op.level) (hop : op.isComparison = false) (hts : Complete (.level op.left) a ts)
    (hus : Complete (.level op.right) b us) :
    Complete (.level l) (.binary op a b) (ts ++ op.symbol :: us) := by
  intro k rest n x hk hfollows hclimb m hm
  simp only [List.length_append, List.length_cons] at hm
  obtain ⟨hright, hstops⟩ := hfollows.right hl
  have hstep := climb_operator false a (Nat.le_trans hk hl) hus hright hstops
    (by simpa [extend, hop] using hclimb)
  rw [List.append_assoc]
  exact hts (Nat.le_trans hk (Nat.le_trans hl op.level_le_left)) (follows_symbol op _) hstep m
    (by omega)

/-- A comparison opens a chain. -/
theorem Complete.first {op : BinaryOperator} {a b : Expr} {ts us : List Token}
    (hop : op.isComparison = true) (hts : Complete (.level op.left) a ts)
    (hus : Complete (.level op.right) b us) :
    Complete .chain (.binary op a b) (ts ++ op.symbol :: us) := by
  intro k rest n x hk hfollows hclimb m hm
  obtain ⟨hleft, hlevel, hright⟩ := BinaryOperator.levels_of_isComparison hop
  simp only [List.length_append, List.length_cons] at hm
  obtain ⟨hfollows, hstops⟩ := hfollows.right
  rw [← hright] at hfollows hstops
  have hstep := climb_operator false a (hlevel ▸ hk) hus hfollows hstops
    (by simpa [extend, hop] using hclimb)
  rw [List.append_assoc]
  exact hts (by omega) (follows_symbol op _) hstep m (by omega)

/-- A comparison continues an open chain. -/
theorem Complete.next {op : BinaryOperator} {a b : Expr} {ts us : List Token}
    (hop : op.isComparison = true) (hts : Complete .chain a ts)
    (hus : Complete (.level op.right) b us) :
    Complete .chain (.chained op a b) (ts ++ op.symbol :: us) := by
  intro k rest n x hk hfollows hclimb m hm
  obtain ⟨hleft, hlevel, hright⟩ := BinaryOperator.levels_of_isComparison hop
  simp only [List.length_append, List.length_cons] at hm
  obtain ⟨hfollows, hstops⟩ := hfollows.right
  rw [← hright] at hfollows hstops
  have hstep := climb_operator true a (hlevel ▸ hk) hus hfollows hstops
    (by simpa [extend, hop] using hclimb)
  have hsymbol : FollowsChain (op.symbol :: us ++ rest) := by
    intro tok htok
    obtain rfl := Option.some.inj htok
    refine ⟨?_, ?_, ?_⟩
    · intro next hnext
      rw [Token.binary?_symbol] at hnext
      obtain rfl := Option.some.inj hnext
      exact Or.inl hop
    · cases op <;> decide
    · cases op <;> decide
  rw [List.append_assoc]
  exact hts hk hsymbol hstep m (by omega)

/-- A chain is read back up to the level of comparisons. -/
theorem Complete.comparison {l : Nat} {e : Expr} {ts : List Token} (hl : l ≤ 4)
    (hts : Complete .chain e ts) : Complete (.level l) e ts := by
  intro k rest n x hk hfollows hclimb m hm
  have hchain : FollowsChain rest := by
    intro tok htok
    obtain ⟨hop, htrailer⟩ := hfollows tok htok
    refine ⟨?_, ?_, ?_⟩
    · intro op hbinary
      exact Or.inr (Nat.le_trans (hop op hbinary) hl)
    · intro h
      have := htrailer (Or.inl h)
      omega
    · intro h
      have := htrailer (Or.inr h)
      omega
  have hclosed : ∀ tok, rest.head? = some tok → ∀ op, tok.binary? = some op →
      op.isComparison = false := by
    intro tok htok op hbinary
    have hle := Nat.le_trans ((hfollows tok htok).1 op hbinary) hl
    cases op <;> revert hle <;> decide
  apply hts (Nat.le_trans hk hl) hchain _ m hm
  intro m hm
  rw [climb_opened hclosed]
  exact hclimb m hm

/-- A member is read back after the expression that it belongs to. -/
theorem Complete.member {l : Nat} {e : Expr} {name : String} {ts : List Token} (hl : l ≤ 10)
    (hname : isPlain name = true) (hts : Complete (.level 10) e ts) :
    Complete (.level l) (.member e name) (ts ++ [.dot, .word name]) := by
  intro k rest n x hk _ hclimb m hm
  simp only [List.length_append, List.length_cons, List.length_nil] at hm
  have hstep : ∀ m ≥ n + 1, climb m k false e (.dot :: .word name :: rest) = some x := by
    intro m hm
    obtain ⟨m, rfl⟩ := Nat.exists_eq_add_of_le' (show 1 ≤ m by omega)
    have hbinary : Token.dot.binary? = none := by decide
    have hopening : Token.dot ≠ Bracket.round.opening := by decide
    simp only [climb, hbinary, hopening, if_false, if_true, expectName, hname,
      Option.bind_eq_bind, Option.bind_some]
    exact hclimb m (by omega)
  rw [List.append_assoc]
  exact hts (Nat.le_trans hk hl) (follows_trailer (by decide)) hstep m (by omega)

/-- A call is read back after the expression that is called. -/
theorem Complete.call {l : Nat} {f args : Expr} {ts us : List Token} (hl : l ≤ 10)
    (hts : Complete (.level 10) f ts) (hus : Complete .arguments args us) :
    Complete (.level l) (.call f args)
      (ts ++ Bracket.round.opening :: us ++ [Bracket.round.closing]) := by
  intro k rest n x hk _ hclimb m hm
  simp only [List.length_append, List.length_cons, List.length_nil] at hm
  have hbinary : Bracket.round.opening.binary? = none := by decide
  have hstep : ∀ m ≥ n + 3 * us.length + 3,
      climb m k false f (Bracket.round.opening :: (us ++ Bracket.round.closing :: rest)) =
        some x := by
    intro m hm
    obtain ⟨m, rfl⟩ := Nat.exists_eq_add_of_le' (show 1 ≤ m by omega)
    have harguments : arguments m (us ++ Bracket.round.closing :: rest) =
        some (args, Bracket.round.closing :: rest) := hus rfl m (by omega)
    simp only [climb, hbinary, if_true, harguments, Option.bind_eq_bind, Option.bind_some,
      expect_cons]
    exact hclimb m (by omega)
  simp only [List.append_assoc, List.cons_append, List.nil_append]
  exact hts (Nat.le_trans hk hl) (follows_trailer hbinary) hstep m (by omega)

theorem Complete.plain {e : Expr} {ts : List Token} (hts : Complete (.level 1) e ts) :
    Complete (.item false) e ts := by
  intro rest hrest m hm
  obtain ⟨m, rfl⟩ := Nat.exists_eq_add_of_le' (show 1 ≤ m by omega)
  exact hts.parse_eq_of_ends hrest (by omega)

theorem Complete.entry {k v : Expr} {ts us : List Token} (hts : Complete (.level 1) k ts)
    (hus : Complete (.level 1) v us) :
    Complete (.item true) (.pair k v) (ts ++ .colon :: us) := by
  intro rest hrest m hm
  simp only [List.length_append, List.length_cons] at hm
  obtain ⟨m, rfl⟩ := Nat.exists_eq_add_of_le' (show 1 ≤ m by omega)
  have hcolon : Ends (.colon :: (us ++ rest)) := ends_cons (by decide) (by decide) (by decide)
  have hkey := hts.parse_eq_of_ends hcolon (m := m) (by omega)
  have hvalue := hus.parse_eq_of_ends hrest (m := m) (by omega)
  simp [item, hkey, hvalue, expect_cons]

theorem Complete.noMore {entry : Bool} : Complete (.more entry) .none [] := by
  intro rest _ hcomma m hm
  obtain ⟨m, rfl⟩ := Nat.exists_eq_add_of_le' (show 1 ≤ m by simpa using hm)
  simp [more, expect_eq_none hcomma]

/-- Further items are read back one by one. -/
theorem Complete.more {entry : Bool} {e es : Expr} {ts us : List Token}
    (hts : Complete (.item entry) e ts) (hus : Complete (.more entry) es us)
    (hmore : Derives (.more entry) es us) :
    Complete (.more entry) (.cons e es) (.comma :: ts ++ us) := by
  intro rest hrest hcomma m hm
  simp only [List.length_append, List.length_cons] at hm
  obtain ⟨m, rfl⟩ := Nat.exists_eq_add_of_le' (show 1 ≤ m by omega)
  have hitem : Python.item m entry (ts ++ (us ++ rest)) = some (e, us ++ rest) :=
    hts (hmore.ends_more hrest) m (by omega)
  have hothers : Python.more m entry (us ++ rest) = some (es, rest) :=
    hus hrest hcomma m (by omega)
  simp [Python.more, expect_cons, hitem, hothers]

theorem Complete.noFilters : Complete .filters .none [] := by
  intro rest _ hif m hm
  obtain ⟨m, rfl⟩ := Nat.exists_eq_add_of_le' (show 1 ≤ m by simpa using hm)
  simp [filters, expect_eq_none hif]

/-- Filters are read back one by one. -/
theorem Complete.filters {e fs : Expr} {ts us : List Token} (hts : Complete (.level 1) e ts)
    (hus : Complete .filters fs us) (hfilters : Derives .filters fs us) :
    Complete .filters (.cons e fs) (.word "if" :: ts ++ us) := by
  intro rest hrest hif m hm
  simp only [List.length_append, List.length_cons] at hm
  obtain ⟨m, rfl⟩ := Nat.exists_eq_add_of_le' (show 1 ≤ m by omega)
  have hparse := hts.parse_eq_of_ends (hfilters.ends_filters hrest) (m := m) (by omega)
  have hothers : Python.filters m (us ++ rest) = some (fs, rest) := hus hrest hif m (by omega)
  simp [Python.filters, expect_cons, hparse, hothers]

theorem Complete.noClauses : Complete .clauses .none [] := by
  intro rest _ hhead _ m hm
  obtain ⟨m, rfl⟩ := Nat.exists_eq_add_of_le' (show 1 ≤ m by simpa using hm)
  simp [clauses, hhead]

/-- Clauses are read back one by one, each with its filters. -/
theorem Complete.clauses {isAsync : Bool} {target : String} {e fs cs : Expr}
    {ts us vs : List Token} (hplain : isPlain target = true) (hts : Complete (.level 1) e ts)
    (hus : Complete .filters fs us) (hvs : Complete .clauses cs vs)
    (hfilters : Derives .filters fs us) (hclauses : Derives .clauses cs vs) :
    Complete .clauses (.cons (.clause isAsync target e fs) cs)
      (clauseHead isAsync target ++ (ts ++ (us ++ vs))) := by
  intro rest hrest hhead hif m hm
  simp only [List.length_append] at hm
  have hlength : 1 ≤ (clauseHead isAsync target).length := by simp [clauseHead]
  obtain ⟨m, rfl⟩ := Nat.exists_eq_add_of_le' (show 1 ≤ m by omega)
  have hends := hclauses.ends_clauses hrest
  have hparse := hts.parse_eq_of_ends (hfilters.ends_filters hends) (m := m) (by omega)
  have hothers : Python.filters m (us ++ (vs ++ rest)) = some (fs, vs ++ rest) :=
    hus hends (hclauses.head?_clauses hif) m (by omega)
  have hnext : Python.clauses m (vs ++ rest) = some (cs, rest) :=
    hvs hrest hhead hif m (by omega)
  simp only [List.append_assoc, Python.clauses, clauseHead?_append hplain, hparse, hothers, hnext,
    Option.bind_eq_bind, Option.bind_some, Option.pure_def]

theorem Complete.noArguments : Complete .arguments .none [] := by
  intro rest hclosing m hm
  obtain ⟨m, rfl⟩ := Nat.exists_eq_add_of_le' (show 1 ≤ m by omega)
  obtain ⟨tail, rfl⟩ := List.head?_eq_some_iff.mp hclosing
  simp [arguments]

theorem head?_more {entry : Bool} {es : Expr} {us rest : List Token} {tok : Token}
    (h : Derives (.more entry) es us) (hrest : rest.head? ≠ some tok) (htok : tok ≠ .comma) :
    (us ++ rest).head? ≠ some tok := by
  cases h with
  | noMore => exact hrest
  | more => simpa using htok.symm

/-- The arguments of a call are read back up to the closing bracket. -/
theorem Complete.arguments {e es : Expr} {ts us : List Token} (hts : Complete (.level 1) e ts)
    (hus : Complete (.more false) es us) (he : Derives (.level 1) e ts)
    (hmore : Derives (.more false) es us) : Complete .arguments (.cons e es) (ts ++ us) := by
  intro rest hclosing m hm
  simp only [List.length_append] at hm
  obtain ⟨m, rfl⟩ := Nat.exists_eq_add_of_le' (show 1 ≤ m by omega)
  have hrest := ends_of_closing hclosing
  have hparse := hts.parse_eq_of_ends (hmore.ends_more hrest) (m := m) (by omega)
  have hothers : Python.more m false (us ++ rest) = some (es, rest) :=
    hus hrest (by rw [hclosing]; decide) m (by omega)
  obtain ⟨tok, tail, rfl, hbegins⟩ := he.begins rfl
  simp only [List.cons_append, List.append_assoc] at hparse ⊢
  simp [Python.arguments, hbegins.not_closing, hparse, hothers]

theorem Complete.empty {b : Bracket} : Complete (.contents b) (.display b .none) [] := by
  intro rest hclosing m hm
  obtain ⟨m, rfl⟩ := Nat.exists_eq_add_of_le' (show 1 ≤ m by omega)
  obtain ⟨tail, rfl⟩ := List.head?_eq_some_iff.mp hclosing
  simp [contents]

/-- The step of `contents` over the first item. -/
theorem contents_eq {b : Bracket} {e : Expr} {ts rest : List Token}
    (hts : Complete (.level 1) e ts) (he : Derives (.level 1) e ts) (hrest : Ends rest)
    {m : Nat} (hm : 3 * ts.length + 1 ≤ m) :
    contents (m + 1) b (ts ++ rest) =
      match clauseHead? rest with
      | some _ => (clauses m rest).map fun (cs, rest) => (.comprehension b e cs, rest)
      | none =>
        if b = .round ∧ rest.head? = some .comma ∧ rest.tail.head? = some b.closing then
          some (.display b (.cons e .none), rest.tail)
        else if b = .curly ∧ rest.head? = some .colon then
          (parse m 1 rest.tail).bind fun (v, rest) =>
            (more m true rest).map fun (es, rest) => (.display b (.cons (.pair e v) es), rest)
        else
          (more m false rest).map fun (es, rest) => (b.enclose e es, rest) := by
  have hparse := hts.parse_eq_of_ends hrest hm
  obtain ⟨tok, tail, rfl, hbegins⟩ := he.begins rfl
  simp only [List.cons_append] at hparse ⊢
  simp only [contents, hbegins.not_closing, if_false, hparse, Option.bind_eq_bind,
    Option.bind_some, Option.pure_def, Option.map_eq_bind]
  rfl

/-- Items in brackets are read back as a display. -/
theorem Complete.items {b : Bracket} {e es : Expr} {ts us : List Token}
    (hts : Complete (.level 1) e ts) (hus : Complete (.more false) es us)
    (he : Derives (.level 1) e ts) (hmore : Derives (.more false) es us) :
    Complete (.contents b) (b.enclose e es) (ts ++ us) := by
  intro rest hclosing m hm
  simp only [List.length_append] at hm
  obtain ⟨m, rfl⟩ := Nat.exists_eq_add_of_le' (show 1 ≤ m by omega)
  have hrest := ends_of_closing hclosing
  have hhead : ∀ tok : Token, tok ≠ .comma → (∀ b : Bracket, tok ≠ b.closing) →
      (us ++ rest).head? ≠ some tok := fun tok hcomma hclose =>
    head?_more hmore (by rw [hclosing]; simpa using (hclose b).symm) hcomma
  have hclause : clauseHead? (us ++ rest) = none :=
    clauseHead?_eq_none (hhead _ (by decide) fun b => by cases b <;> decide)
      (hhead _ (by decide) fun b => by cases b <;> decide)
  have hcolon : (us ++ rest).head? ≠ some .colon :=
    hhead _ (by decide) fun b => by cases b <;> decide
  have hsingle : ¬ ((us ++ rest).head? = some .comma ∧
      (us ++ rest).tail.head? = some b.closing) := by
    rintro ⟨hcomma, hclose⟩
    cases hmore with
    | noMore =>
        rw [List.nil_append, hclosing] at hcomma
        cases b <;> revert hcomma <;> decide
    | @more _ _ _ vs ws hitem _ =>
        obtain ⟨tok, tail, rfl, hbegins⟩ := hitem.begins rfl
        exact hbegins.not_closing b (by simpa using hclose)
  have hothers : Python.more m false (us ++ rest) = some (es, rest) :=
    hus hrest (by rw [hclosing]; cases b <;> decide) m (by omega)
  simp only [List.append_assoc]
  rw [contents_eq hts he (hmore.ends_more hrest) (by omega)]
  simp only [hclause, hsingle, hcolon, and_false, if_false, hothers, Option.map_some]

/-- A comma after a single item is read back as a tuple. -/
theorem Complete.singleton {e : Expr} {ts : List Token} (hts : Complete (.level 1) e ts)
    (he : Derives (.level 1) e ts) :
    Complete (.contents .round) (.display .round (.cons e .none)) (ts ++ [.comma]) := by
  intro rest hclosing m hm
  simp only [List.length_append, List.length_singleton] at hm
  obtain ⟨m, rfl⟩ := Nat.exists_eq_add_of_le' (show 1 ≤ m by omega)
  have hcomma : Ends (.comma :: rest) := ends_cons (by decide) (by decide) (by decide)
  simp only [List.append_assoc, List.singleton_append]
  rw [contents_eq hts he hcomma (by omega)]
  have hclause : clauseHead? (.comma :: rest) = none := rfl
  simp [hclause, hclosing]

/-- Entries in brackets are read back as a mapping. -/
theorem Complete.entries {k v es : Expr} {ts us vs : List Token}
    (hts : Complete (.level 1) k ts) (hus : Complete (.level 1) v us)
    (hvs : Complete (.more true) es vs) (hk : Derives (.level 1) k ts)
    (hmore : Derives (.more true) es vs) :
    Complete (.contents .curly) (.display .curly (.cons (.pair k v) es))
      (ts ++ .colon :: us ++ vs) := by
  intro rest hclosing m hm
  simp only [List.length_append, List.length_cons] at hm
  obtain ⟨m, rfl⟩ := Nat.exists_eq_add_of_le' (show 1 ≤ m by omega)
  have hrest := ends_of_closing hclosing
  have hcolon : Ends (.colon :: (us ++ (vs ++ rest))) :=
    ends_cons (by decide) (by decide) (by decide)
  have hvalue := hus.parse_eq_of_ends (hmore.ends_more hrest) (m := m) (by omega)
  have hothers : Python.more m true (vs ++ rest) = some (es, rest) :=
    hvs hrest (by rw [hclosing]; decide) m (by omega)
  have hclause : clauseHead? (.colon :: (us ++ (vs ++ rest))) = none := rfl
  simp only [List.append_assoc, List.cons_append]
  rw [contents_eq hts hk hcolon (by omega)]
  simp [hclause, hvalue, hothers]

/-- An element and its clauses are read back as a comprehension. -/
theorem Complete.comprehension {b : Bracket} {e c cs : Expr} {ts us : List Token}
    (hts : Complete (.level 1) e ts) (hus : Complete .clauses (.cons c cs) us)
    (he : Derives (.level 1) e ts) (hclauses : Derives .clauses (.cons c cs) us) :
    Complete (.contents b) (.comprehension b e (.cons c cs)) (ts ++ us) := by
  intro rest hclosing m hm
  simp only [List.length_append] at hm
  obtain ⟨m, rfl⟩ := Nat.exists_eq_add_of_le' (show 1 ≤ m by omega)
  have hrest := ends_of_closing hclosing
  have hnone : clauseHead? rest = none := by
    obtain ⟨tail, rfl⟩ := List.head?_eq_some_iff.mp hclosing
    cases b <;> rfl
  have hothers : Python.clauses m (us ++ rest) = some (.cons c cs, rest) :=
    hus hrest hnone (by rw [hclosing]; cases b <;> decide) m (by omega)
  have hclause : ∃ found, clauseHead? (us ++ rest) = some found := by
    cases hclauses with
    | clauses hplain => exact ⟨_, by rw [List.append_assoc, clauseHead?_append hplain]⟩
  obtain ⟨found, hclause⟩ := hclause
  simp only [List.append_assoc]
  rw [contents_eq hts he (hclauses.ends_clauses hrest) (by omega)]
  simp [hclause, hothers]

/-- The parser reads every derived expression back. -/
theorem Derives.complete {f : Form} {e : Expr} {ts : List Token} (h : Derives f e ts) :
    Complete f e ts := by
  induction h with
  | atom _ hatom => exact Complete.atom hatom
  | bracket _ _ ih => exact Complete.bracket ih
  | unary hl _ ih => exact Complete.unary hl ih
  | binary hl hop _ _ iha ihb => exact Complete.binary hl hop iha ihb
  | comparison hl _ ih => exact Complete.comparison hl ih
  | member hl hname _ ih => exact Complete.member hl hname ih
  | call hl _ _ ihf iha => exact Complete.call hl ihf iha
  | first hop _ _ iha ihb => exact Complete.first hop iha ihb
  | next hop _ _ iha ihb => exact Complete.next hop iha ihb
  | plain _ ih => exact Complete.plain ih
  | entry _ _ ihk ihv => exact Complete.entry ihk ihv
  | noMore => exact Complete.noMore
  | more _ hes ihe ihes => exact Complete.more ihe ihes hes
  | empty => exact Complete.empty
  | items he hes hx ihe ihes => exact hx ▸ Complete.items ihe ihes he hes
  | singleton he ih => exact Complete.singleton ih he
  | entries hk _ hes ihk ihv ihes => exact Complete.entries ihk ihv ihes hk hes
  | comprehension he hcs ihe ihcs => exact Complete.comprehension ihe ihcs he hcs
  | noArguments => exact Complete.noArguments
  | arguments he hes ihe ihes => exact Complete.arguments ihe ihes he hes
  | noClauses => exact Complete.noClauses
  | clauses hplain _ hfs hcs ihe ihfs ihcs => exact Complete.clauses hplain ihe ihfs ihcs hfs hcs
  | noFilters => exact Complete.noFilters
  | filters _ hfs ihe ihfs => exact Complete.filters ihe ihfs hfs

/-- The expression that some tokens are, if they are one. -/
def readTokens (ts : List Token) : Option Expr :=
  match parse (3 * ts.length + 1) 1 ts with
  | some (e, []) => some e
  | _ => none

/-- Reading tokens decides the grammar. -/
theorem readTokens_eq_some_iff {ts : List Token} {e : Expr} :
    readTokens ts = some e ↔ Derives (.level 1) e ts := by
  constructor
  · intro h
    unfold readTokens at h
    split at h
    · next x hparse =>
      obtain rfl := Option.some.inj h
      obtain ⟨us, hus, hderives, -⟩ := (sound _).parse (by decide) hparse
      rw [hus, List.append_nil]
      exact hderives
    · cases h
  · intro h
    have hcomplete : Complete (.level 1) e ts := h.complete
    have hparse := hcomplete.parse_eq_of_ends ends_nil (Nat.le_refl _)
    rw [List.append_nil] at hparse
    simp [readTokens, hparse]

/-- The grammar is unambiguous. -/
theorem Derives.unique {e e' : Expr} {ts : List Token} (h : Derives (.level 1) e ts)
    (h' : Derives (.level 1) e' ts) : e = e' :=
  Option.some.inj ((readTokens_eq_some_iff.mpr h).symm.trans (readTokens_eq_some_iff.mpr h'))

end TypedSyntax.Python
