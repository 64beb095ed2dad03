import TypedSyntax.Proofs.Python.Grammar

/-!
# Parsing Python expressions

A parser by operator levels: `parse` reads an expression of at least some
level, and `climb` continues one with the operators that bind as tightly. The
parser is sound and complete for the grammar, so that the grammar is
unambiguous.
-/

namespace TypedSyntax.Python

/-- The rest after a token. -/
def expect (tok : Token) : List Token → Option (List Token)
  | [] => none
  | t :: ts => if t = tok then some ts else none

/-- The rest after a name. -/
def expectName : List Token → Option (String × List Token)
  | .word w :: ts => if isPlain w then some (w, ts) else none
  | _ => none

/-- The head of a clause up to its iterable, if there is one. -/
def clauseHead? : List Token → Option (Bool × String × List Token)
  | .word "async" :: .word "for" :: ts => do
    let (target, rest) ← expectName ts
    return (true, target, ← expect (.word "in") rest)
  | .word "for" :: ts => do
    let (target, rest) ← expectName ts
    return (false, target, ← expect (.word "in") rest)
  | _ => none

/-- An expression continued by an operator and its right operand. -/
def extend (opened : Bool) (op : BinaryOperator) (lhs rhs : Expr) : Expr :=
  if opened && op.isComparison then .chained op lhs rhs else .binary op lhs rhs

mutual

/-- Reads an expression of at least some level. -/
def parse : (fuel level : Nat) → List Token → Option (Expr × List Token)
  | n + 1, l, tok :: ts =>
    match tok.unary? with
    | some op =>
      if l ≤ op.level then do
        let (e, rest) ← parse n op.level ts
        climb n l false (.unary op e) rest
      else none
    | none =>
      match tok.bracket? with
      | some b => do
        let (e, rest) ← contents n b ts
        climb n l false e (← expect b.closing rest)
      | none => if tok.isAtom then climb n l false (.atom tok) ts else none
  | _, _, _ => none

/-- Continues an expression with operators of at least some level. The flag
says that the expression is an open chain of comparisons. -/
def climb : (fuel level : Nat) → Bool → Expr → List Token → Option (Expr × List Token)
  | 0, _, _, _, _ => none
  | _ + 1, _, _, e, [] => some (e, [])
  | n + 1, l, opened, e, tok :: ts =>
    match tok.binary? with
    | some op =>
      if l ≤ op.level then do
        let (r, rest) ← parse n op.right ts
        climb n l op.isComparison (extend opened op e r) rest
      else some (e, tok :: ts)
    | none =>
      if tok = Bracket.round.opening then do
        let (args, rest) ← arguments n ts
        climb n l false (.call e args) (← expect Bracket.round.closing rest)
      else if tok = .dot then do
        let (name, rest) ← expectName ts
        climb n l false (.member e name) rest
      else some (e, tok :: ts)

/-- Reads what stands inside brackets, up to the closing one. -/
def contents : (fuel : Nat) → Bracket → List Token → Option (Expr × List Token)
  | n + 1, b, tok :: ts =>
    if tok = b.closing then some (.display b .none, tok :: ts)
    else do
      let (e, rest) ← parse n 1 (tok :: ts)
      match clauseHead? rest with
      | some _ =>
        let (cs, rest) ← clauses n rest
        return (.comprehension b e cs, rest)
      | none =>
        if b = .round ∧ rest.head? = some .comma ∧ rest.tail.head? = some b.closing then
          return (.display b (.cons e .none), rest.tail)
        else if b = .curly ∧ rest.head? = some .colon then
          let (v, rest) ← parse n 1 rest.tail
          let (es, rest) ← more n true rest
          return (.display b (.cons (.pair e v) es), rest)
        else
          let (es, rest) ← more n false rest
          return (b.enclose e es, rest)
  | _, _, _ => none

/-- Reads the arguments of a call. -/
def arguments : (fuel : Nat) → List Token → Option (Expr × List Token)
  | n + 1, tok :: ts =>
    if tok = Bracket.round.closing then some (.none, tok :: ts)
    else do
      let (e, rest) ← parse n 1 (tok :: ts)
      let (es, rest) ← more n false rest
      return (.cons e es, rest)
  | _, _ => none

/-- Reads further items, each after a comma. -/
def more : (fuel : Nat) → Bool → List Token → Option (Expr × List Token)
  | 0, _, _ => none
  | n + 1, entry, ts =>
    match expect .comma ts with
    | none => some (.none, ts)
    | some ts => do
      let (e, rest) ← item n entry ts
      let (es, rest) ← more n entry rest
      return (.cons e es, rest)

/-- Reads an item, or a key and its value. -/
def item : (fuel : Nat) → Bool → List Token → Option (Expr × List Token)
  | 0, _, _ => none
  | n + 1, false, ts => parse n 1 ts
  | n + 1, true, ts => do
    let (k, rest) ← parse n 1 ts
    let (v, rest) ← parse n 1 (← expect .colon rest)
    return (.pair k v, rest)

/-- Reads the clauses of a comprehension. -/
def clauses : (fuel : Nat) → List Token → Option (Expr × List Token)
  | 0, _ => none
  | n + 1, ts =>
    match clauseHead? ts with
    | none => some (.none, ts)
    | some (isAsync, target, ts) => do
      let (e, rest) ← parse n 1 ts
      let (fs, rest) ← filters n rest
      let (cs, rest) ← clauses n rest
      return (.cons (.clause isAsync target e fs) cs, rest)

/-- Reads the filters of a clause. -/
def filters : (fuel : Nat) → List Token → Option (Expr × List Token)
  | 0, _ => none
  | n + 1, ts =>
    match expect (.word "if") ts with
    | none => some (.none, ts)
    | some ts => do
      let (e, rest) ← parse n 1 ts
      let (fs, rest) ← filters n rest
      return (.cons e fs, rest)

end

/-! ## Soundness -/

theorem eq_cons_of_expect {tok : Token} {ts rest : List Token} (h : expect tok ts = some rest) :
    ts = tok :: rest := by
  cases ts with
  | nil => cases h
  | cons t ts =>
      simp only [expect] at h
      split at h
      · next ht =>
        obtain rfl := Option.some.inj h
        rw [ht]
      · cases h

theorem eq_cons_of_expectName {ts rest : List Token} {name : String}
    (h : expectName ts = some (name, rest)) : isPlain name = true ∧ ts = .word name :: rest := by
  unfold expectName at h
  split at h
  · split at h
    · next hplain =>
      obtain ⟨rfl, rfl⟩ := Prod.mk.inj (Option.some.inj h)
      exact ⟨hplain, rfl⟩
    · cases h
  · cases h

theorem eq_append_of_clauseHead? {ts rest : List Token} {isAsync : Bool} {target : String}
    (h : clauseHead? ts = some (isAsync, target, rest)) :
    isPlain target = true ∧ ts = clauseHead isAsync target ++ rest := by
  unfold clauseHead? at h
  split at h
  · simp only [Option.bind_eq_bind, Option.bind_eq_some_iff, Option.pure_def, Option.some.injEq,
      Prod.mk.injEq, Prod.exists] at h
    obtain ⟨name, rest', hname, rest'', hin, rfl, rfl, rfl⟩ := h
    obtain ⟨hplain, rfl⟩ := eq_cons_of_expectName hname
    obtain rfl := eq_cons_of_expect hin
    exact ⟨hplain, rfl⟩
  · simp only [Option.bind_eq_bind, Option.bind_eq_some_iff, Option.pure_def, Option.some.injEq,
      Prod.mk.injEq, Prod.exists] at h
    obtain ⟨name, rest', hname, rest'', hin, rfl, rfl, rfl⟩ := h
    obtain ⟨hplain, rfl⟩ := eq_cons_of_expectName hname
    obtain rfl := eq_cons_of_expect hin
    exact ⟨hplain, rfl⟩
  · cases h

/-- No operator of at least some level comes next. -/
def Stops (l : Nat) (rest : List Token) : Prop :=
  ∀ tok, rest.head? = some tok →
    (∀ op, tok.binary? = some op → op.level < l) ∧ tok ≠ Bracket.round.opening ∧ tok ≠ .dot

/-- An operator of a lower level does not continue an expression. -/
theorem stops_symbol {l : Nat} {op : BinaryOperator} (h : op.level < l) (ts : List Token) :
    Stops l (op.symbol :: ts) := by
  intro tok htok
  obtain rfl := Option.some.inj htok
  refine ⟨fun op' hop' => ?_, ?_, ?_⟩
  · rw [Token.binary?_symbol] at hop'
    obtain rfl := Option.some.inj hop'
    exact h
  · cases op <;> decide
  · cases op <;> decide

theorem stops_cons {tok : Token} (hbinary : tok.binary? = none)
    (hopening : tok ≠ Bracket.round.opening) (hdot : tok ≠ .dot) (l : Nat) (ts : List Token) :
    Stops l (tok :: ts) := by
  intro tok' htok
  obtain rfl := Option.some.inj htok
  refine ⟨fun op hop => ?_, hopening, hdot⟩
  rw [hbinary] at hop
  cases hop

/-- The left operand of an operator: an open chain or an expression of its
level. -/
def IsLeft (opened : Bool) (op : BinaryOperator) (e : Expr) (us : List Token) : Prop :=
  if opened && op.isComparison then Derives .chain e us else Derives (.level op.left) e us

/-- The operator that comes next, if any, takes the expression as its left
operand. -/
def Ready (opened : Bool) (e : Expr) (us rest : List Token) : Prop :=
  ∀ tok, rest.head? = some tok →
    (∀ op, tok.binary? = some op → IsLeft opened op e us) ∧
      (tok = Bracket.round.opening ∨ tok = .dot → Derives (.level 10) e us)

/-- An expression of the highest level is a left operand of every operator. -/
theorem ready_of_level {e : Expr} {us rest : List Token} (h : Derives (.level 10) e us) :
    Ready false e us rest := by
  intro tok _
  constructor
  · intro op _
    exact h.weaken (by cases op <;> decide)
  · exact fun _ => h

/-- An operator that comes next is not one of the level, and so takes the expression. -/
theorem ready_of_stops {l m : Nat} {e : Expr} {us rest : List Token}
    (h : Derives (.level m) e us) (hstops : Stops l rest)
    (hleft : ∀ op : BinaryOperator, op.level < l → op.left ≤ m) : Ready false e us rest := by
  intro tok htok
  obtain ⟨hop, hopening, hdot⟩ := hstops tok htok
  constructor
  · intro op hbinary
    exact h.weaken (hleft op (hop op hbinary))
  · rintro (rfl | rfl)
    · exact (hopening rfl).elim
    · exact (hdot rfl).elim

/-- The expression continued by an operator is derived. -/
theorem derives_extend {opened : Bool} {op : BinaryOperator} {e r : Expr} {us vs : List Token}
    (he : IsLeft opened op e us) (hr : Derives (.level op.right) r vs) :
    (op.isComparison = true → Derives .chain (extend opened op e r) (us ++ op.symbol :: vs)) ∧
      Derives (.level op.level) (extend opened op e r) (us ++ op.symbol :: vs) := by
  by_cases hop : op.isComparison = true
  · have hchain : Derives .chain (extend opened op e r) (us ++ op.symbol :: vs) := by
      cases opened with
      | true =>
          simp only [IsLeft, hop, Bool.and_self, if_true] at he
          simp only [extend, hop, Bool.and_self, if_true]
          exact Derives.next hop he hr
      | false =>
          simp only [IsLeft, Bool.false_and, Bool.false_eq_true, if_false] at he
          simp only [extend, Bool.false_and, Bool.false_eq_true, if_false]
          exact Derives.first hop he hr
    exact ⟨fun _ => hchain,
      Derives.comparison (Nat.le_of_eq (BinaryOperator.levels_of_isComparison hop).2.1) hchain⟩
  · simp only [Bool.not_eq_true] at hop
    simp only [IsLeft, hop, Bool.and_false, Bool.false_eq_true, if_false] at he
    simp only [extend, hop, Bool.and_false, Bool.false_eq_true, if_false]
    exact ⟨fun h => h.elim, Derives.binary (Nat.le_refl _) hop he hr⟩

/-- It is ready for the next operator. -/
theorem ready_extend {opened : Bool} {op : BinaryOperator} {e r : Expr} {us vs rest : List Token}
    (he : IsLeft opened op e us) (hr : Derives (.level op.right) r vs)
    (hstops : Stops op.right rest) :
    Ready op.isComparison (extend opened op e r) (us ++ op.symbol :: vs) rest := by
  obtain ⟨hchain, hlevel⟩ := derives_extend he hr
  intro tok htok
  obtain ⟨hnext, hopening, hdot⟩ := hstops tok htok
  constructor
  · intro next hbinary
    unfold IsLeft
    split
    · next hboth => exact hchain (Bool.and_eq_true_iff.mp hboth).1
    · next hboth =>
      exact hlevel.weaken (BinaryOperator.left_le_level (hnext next hbinary) (by simpa using hboth))
  · rintro (rfl | rfl)
    · exact (hopening rfl).elim
    · exact (hdot rfl).elim

/-- What each function of the parser reads with some fuel is derived. -/
structure Sound (n : Nat) : Prop where
  parse : ∀ {l ts e rest}, l ≤ 10 → parse n l ts = some (e, rest) →
    ∃ us, ts = us ++ rest ∧ Derives (.level l) e us ∧ Stops l rest
  climb : ∀ {l opened e us ts x rest}, l ≤ 10 → Derives (.level l) e us → Ready opened e us ts →
    climb n l opened e ts = some (x, rest) →
    ∃ vs, ts = vs ++ rest ∧ Derives (.level l) x (us ++ vs) ∧ Stops l rest
  contents : ∀ {b ts e rest}, contents n b ts = some (e, rest) →
    ∃ us, ts = us ++ rest ∧ Derives (.contents b) e us
  arguments : ∀ {ts e rest}, arguments n ts = some (e, rest) →
    ∃ us, ts = us ++ rest ∧ Derives .arguments e us
  more : ∀ {entry ts e rest}, more n entry ts = some (e, rest) →
    ∃ us, ts = us ++ rest ∧ Derives (.more entry) e us
  item : ∀ {entry ts e rest}, item n entry ts = some (e, rest) →
    ∃ us, ts = us ++ rest ∧ Derives (.item entry) e us
  clauses : ∀ {ts e rest}, clauses n ts = some (e, rest) →
    (∃ us, ts = us ++ rest ∧ Derives .clauses e us) ∧
      ((clauseHead? ts).isSome = true → ∃ c cs, e = .cons c cs)
  filters : ∀ {ts e rest}, filters n ts = some (e, rest) →
    ∃ us, ts = us ++ rest ∧ Derives .filters e us

section Sound

variable {n : Nat} (hn : Sound n)
include hn

/-- What is read as an expression is derived at its level. -/
theorem Sound.parse_succ {l : Nat} {ts rest : List Token} {e : Expr} (hl : l ≤ 10)
    (h : Python.parse (n + 1) l ts = some (e, rest)) :
    ∃ us, ts = us ++ rest ∧ Derives (.level l) e us ∧ Stops l rest := by
  cases ts with
  | nil => cases h
  | cons tok ts =>
      simp only [Python.parse] at h
      split at h
      · next op hunary =>
        obtain rfl := Token.symbol_of_unary? hunary
        split at h
        · next hlevel =>
          simp only [Option.bind_eq_bind, Option.bind_eq_some_iff, Prod.exists] at h
          obtain ⟨x, mid, hparse, hclimb⟩ := h
          obtain ⟨us, rfl, hx, hstops⟩ := hn.parse (by cases op <;> decide) hparse
          have hop : Derives (.level op.level) (.unary op x) (op.symbol :: us) :=
            Derives.unary (Nat.le_refl _) hx
          obtain ⟨vs, rfl, hderives, hstops⟩ := hn.climb hl (hop.weaken hlevel)
            (ready_of_stops hop hstops fun _ => UnaryOperator.left_le_level) hclimb
          exact ⟨op.symbol :: us ++ vs, by simp, hderives, hstops⟩
        · cases h
      split at h
      · next b hbracket =>
        obtain rfl := Token.opening_of_bracket? hbracket
        simp only [Option.bind_eq_bind, Option.bind_eq_some_iff, Prod.exists] at h
        obtain ⟨x, mid, hcontents, rest', hclosing, hclimb⟩ := h
        obtain ⟨us, rfl, hx⟩ := hn.contents hcontents
        obtain rfl := eq_cons_of_expect hclosing
        have hbracket : Derives (.level 10) x (b.opening :: us ++ [b.closing]) :=
          Derives.bracket (Nat.le_refl _) hx
        obtain ⟨vs, rfl, hderives, hstops⟩ :=
          hn.climb hl (hbracket.weaken hl) (ready_of_level hbracket) hclimb
        exact ⟨b.opening :: us ++ [b.closing] ++ vs, by simp, hderives, hstops⟩
      split at h
      · next hatom =>
        have htok : Derives (.level 10) (.atom tok) [tok] := Derives.atom (Nat.le_refl _) hatom
        obtain ⟨vs, rfl, hderives, hstops⟩ :=
          hn.climb hl (htok.weaken hl) (ready_of_level htok) h
        exact ⟨tok :: vs, by simp, hderives, hstops⟩
      · cases h

/-- An expression goes on with an operator and its right operand. -/
theorem Sound.climb_operator {l : Nat} {opened : Bool} {op : BinaryOperator} {e r x : Expr}
    {us ts mid rest : List Token} (hl : l ≤ 10) (hlevel : l ≤ op.level)
    (hleft : IsLeft opened op e us) (hparse : Python.parse n op.right ts = some (r, mid))
    (hclimb : Python.climb n l op.isComparison (extend opened op e r) mid = some (x, rest)) :
    ∃ vs, op.symbol :: ts = vs ++ rest ∧ Derives (.level l) x (us ++ vs) ∧ Stops l rest := by
  obtain ⟨vs, rfl, hr, hstops⟩ := hn.parse (Nat.le_trans op.right_le (by decide)) hparse
  obtain ⟨ws, rfl, hderives, hstops⟩ := hn.climb hl
    ((derives_extend hleft hr).2.weaken hlevel) (ready_extend hleft hr hstops) hclimb
  exact ⟨op.symbol :: vs ++ ws, by simp, by simpa using hderives, hstops⟩

/-- An expression goes on with the arguments of a call. -/
theorem Sound.climb_call {l : Nat} {e args x : Expr} {us ts mid after rest : List Token}
    (hl : l ≤ 10) (he : Derives (.level 10) e us)
    (hargs : Python.arguments n ts = some (args, mid))
    (hclosing : expect Bracket.round.closing mid = some after)
    (hclimb : Python.climb n l false (.call e args) after = some (x, rest)) :
    ∃ vs, Bracket.round.opening :: ts = vs ++ rest ∧ Derives (.level l) x (us ++ vs) ∧
      Stops l rest := by
  obtain ⟨vs, rfl, hderives⟩ := hn.arguments hargs
  obtain rfl := eq_cons_of_expect hclosing
  have hcall := Derives.call (l := 10) (Nat.le_refl _) he hderives
  obtain ⟨ws, rfl, hderives, hstops⟩ :=
    hn.climb hl (hcall.weaken hl) (ready_of_level hcall) hclimb
  exact ⟨Bracket.round.opening :: vs ++ Bracket.round.closing :: ws, by simp,
    by simpa using hderives, hstops⟩

/-- An expression goes on with the name of a member. -/
theorem Sound.climb_member {l : Nat} {e x : Expr} {name : String} {us ts after rest : List Token}
    (hl : l ≤ 10) (he : Derives (.level 10) e us) (hname : expectName ts = some (name, after))
    (hclimb : Python.climb n l false (.member e name) after = some (x, rest)) :
    ∃ vs, .dot :: ts = vs ++ rest ∧ Derives (.level l) x (us ++ vs) ∧ Stops l rest := by
  obtain ⟨hplain, rfl⟩ := eq_cons_of_expectName hname
  have hmember := Derives.member (l := 10) (Nat.le_refl _) hplain he
  obtain ⟨ws, rfl, hderives, hstops⟩ :=
    hn.climb hl (hmember.weaken hl) (ready_of_level hmember) hclimb
  exact ⟨.dot :: .word name :: ws, rfl, by simpa using hderives, hstops⟩

/-- What is read after an expression is derived together with it. -/
theorem Sound.climb_succ {l : Nat} {opened : Bool} {e x : Expr} {us ts rest : List Token}
    (hl : l ≤ 10) (he : Derives (.level l) e us) (hready : Ready opened e us ts)
    (h : Python.climb (n + 1) l opened e ts = some (x, rest)) :
    ∃ vs, ts = vs ++ rest ∧ Derives (.level l) x (us ++ vs) ∧ Stops l rest := by
  have hend : Stops l ts → some (e, ts) = some (x, rest) →
      ∃ vs, ts = vs ++ rest ∧ Derives (.level l) x (us ++ vs) ∧ Stops l rest := by
    intro hstops heq
    obtain ⟨rfl, rfl⟩ := Prod.mk.inj (Option.some.inj heq)
    exact ⟨[], rfl, by simpa using he, hstops⟩
  cases ts with
  | nil => exact hend (fun tok htok => by cases htok) h
  | cons tok ts =>
      obtain ⟨hoperator, htrailer⟩ := hready tok rfl
      simp only [Python.climb] at h
      split at h
      · next op hbinary =>
        have hleft := hoperator op hbinary
        obtain rfl := Token.symbol_of_binary? hbinary
        split at h
        · next hlevel =>
          simp only [Option.bind_eq_bind, Option.bind_eq_some_iff, Prod.exists] at h
          obtain ⟨r, mid, hparse, hclimb⟩ := h
          exact hn.climb_operator hl hlevel hleft hparse hclimb
        · next hlevel => exact hend (stops_symbol (Nat.lt_of_not_le hlevel) ts) h
      next hbinary =>
      split at h
      · next htok =>
        subst htok
        simp only [Option.bind_eq_bind, Option.bind_eq_some_iff, Prod.exists] at h
        obtain ⟨args, mid, hargs, after, hclosing, hclimb⟩ := h
        exact hn.climb_call hl (htrailer (Or.inl rfl)) hargs hclosing hclimb
      next hopening =>
      split at h
      · next htok =>
        subst htok
        simp only [Option.bind_eq_bind, Option.bind_eq_some_iff, Prod.exists] at h
        obtain ⟨name, after, hname, hclimb⟩ := h
        exact hn.climb_member hl (htrailer (Or.inr rfl)) hname hclimb
      · next hdot => exact hend (stops_cons hbinary hopening hdot l ts) h

/-- What is read inside brackets is derived as their contents. -/
theorem Sound.contents_succ {b : Bracket} {ts rest : List Token} {e : Expr}
    (h : Python.contents (n + 1) b ts = some (e, rest)) :
    ∃ us, ts = us ++ rest ∧ Derives (.contents b) e us := by
  cases ts with
  | nil => cases h
  | cons tok ts =>
      simp only [Python.contents] at h
      split at h
      · next hclosing =>
        obtain ⟨rfl, rfl⟩ := Prod.mk.inj (Option.some.inj h)
        exact ⟨[], rfl, Derives.empty⟩
      simp only [Option.bind_eq_bind, Option.bind_eq_some_iff, Prod.exists] at h
      obtain ⟨x, mid, hparse, h⟩ := h
      obtain ⟨us, hus, hx, -⟩ := hn.parse (by decide) hparse
      rw [hus]
      split at h
      · next hhead =>
        simp only [Option.bind_eq_some_iff, Option.pure_def, Option.some.injEq, Prod.mk.injEq,
          Prod.exists] at h
        obtain ⟨cs, rest', hclauses, rfl, rfl⟩ := h
        obtain ⟨⟨vs, rfl, hcs⟩, hcons⟩ := hn.clauses hclauses
        obtain ⟨c, cs, rfl⟩ := hcons (by rw [hhead]; rfl)
        exact ⟨us ++ vs, by simp, Derives.comprehension hx hcs⟩
      split at h
      · next hsingle =>
        obtain ⟨rfl, hcomma, -⟩ := hsingle
        obtain ⟨rfl, rfl⟩ := Prod.mk.inj (Option.some.inj h)
        obtain ⟨tail, rfl⟩ := List.head?_eq_some_iff.mp hcomma
        exact ⟨us ++ [.comma], by simp, Derives.singleton hx⟩
      split at h
      · next hentry =>
        obtain ⟨rfl, hcolon⟩ := hentry
        obtain ⟨tail, rfl⟩ := List.head?_eq_some_iff.mp hcolon
        simp only [Option.bind_eq_some_iff, Option.pure_def, Option.some.injEq, Prod.mk.injEq,
          Prod.exists, List.tail_cons] at h
        obtain ⟨v, rest', hvalue, es, rest'', hmore, rfl, rfl⟩ := h
        obtain ⟨vs, rfl, hv, -⟩ := hn.parse (by decide) hvalue
        obtain ⟨ws, rfl, hes⟩ := hn.more hmore
        exact ⟨us ++ .colon :: vs ++ ws, by simp, Derives.entries hx hv hes⟩
      · simp only [Option.bind_eq_some_iff, Option.pure_def, Option.some.injEq, Prod.mk.injEq,
          Prod.exists] at h
        obtain ⟨es, rest', hmore, rfl, rfl⟩ := h
        obtain ⟨vs, rfl, hes⟩ := hn.more hmore
        exact ⟨us ++ vs, by simp, Derives.items hx hes rfl⟩

/-- What is read as the arguments of a call is derived as such. -/
theorem Sound.arguments_succ {ts rest : List Token} {e : Expr}
    (h : Python.arguments (n + 1) ts = some (e, rest)) :
    ∃ us, ts = us ++ rest ∧ Derives .arguments e us := by
  cases ts with
  | nil => cases h
  | cons tok ts =>
      simp only [Python.arguments] at h
      split at h
      · obtain ⟨rfl, rfl⟩ := Prod.mk.inj (Option.some.inj h)
        exact ⟨[], rfl, Derives.noArguments⟩
      simp only [Option.bind_eq_bind, Option.bind_eq_some_iff, Option.pure_def, Option.some.injEq,
        Prod.mk.injEq, Prod.exists] at h
      obtain ⟨x, mid, hparse, es, rest', hmore, rfl, rfl⟩ := h
      obtain ⟨us, hus, hx, -⟩ := hn.parse (by decide) hparse
      obtain ⟨vs, rfl, hes⟩ := hn.more hmore
      exact ⟨us ++ vs, by simp [hus], Derives.arguments hx hes⟩

/-- What is read after the first item is derived as further items. -/
theorem Sound.more_succ {entry : Bool} {ts rest : List Token} {e : Expr}
    (h : Python.more (n + 1) entry ts = some (e, rest)) :
    ∃ us, ts = us ++ rest ∧ Derives (.more entry) e us := by
  simp only [Python.more] at h
  split at h
  · obtain ⟨rfl, rfl⟩ := Prod.mk.inj (Option.some.inj h)
    exact ⟨[], rfl, Derives.noMore⟩
  · next hcomma =>
    obtain rfl := eq_cons_of_expect hcomma
    simp only [Option.bind_eq_bind, Option.bind_eq_some_iff, Option.pure_def, Option.some.injEq,
      Prod.mk.injEq, Prod.exists] at h
    obtain ⟨x, mid, hitem, es, rest', hmore, rfl, rfl⟩ := h
    obtain ⟨us, rfl, hx⟩ := hn.item hitem
    obtain ⟨vs, rfl, hes⟩ := hn.more hmore
    exact ⟨.comma :: us ++ vs, by simp, Derives.more hx hes⟩

/-- What is read as an item or an entry is derived as such. -/
theorem Sound.item_succ {entry : Bool} {ts rest : List Token} {e : Expr}
    (h : Python.item (n + 1) entry ts = some (e, rest)) :
    ∃ us, ts = us ++ rest ∧ Derives (.item entry) e us := by
  cases entry with
  | false =>
      obtain ⟨us, rfl, hx, -⟩ := hn.parse (by decide) h
      exact ⟨us, rfl, Derives.plain hx⟩
  | true =>
      simp only [Python.item, Option.bind_eq_bind, Option.bind_eq_some_iff, Option.pure_def,
        Option.some.injEq, Prod.mk.injEq, Prod.exists] at h
      obtain ⟨k, mid, hkey, rest', hcolon, v, rest'', hvalue, rfl, rfl⟩ := h
      obtain ⟨us, rfl, hk, -⟩ := hn.parse (by decide) hkey
      obtain rfl := eq_cons_of_expect hcolon
      obtain ⟨vs, rfl, hv, -⟩ := hn.parse (by decide) hvalue
      exact ⟨us ++ .colon :: vs, by simp, Derives.entry hk hv⟩

/-- What is read as clauses is derived as such, and begins with one. -/
theorem Sound.clauses_succ {ts rest : List Token} {e : Expr}
    (h : Python.clauses (n + 1) ts = some (e, rest)) :
    (∃ us, ts = us ++ rest ∧ Derives .clauses e us) ∧
      ((clauseHead? ts).isSome = true → ∃ c cs, e = .cons c cs) := by
  simp only [Python.clauses] at h
  split at h
  · next hhead =>
    obtain ⟨rfl, rfl⟩ := Prod.mk.inj (Option.some.inj h)
    exact ⟨⟨[], rfl, Derives.noClauses⟩, fun hsome => by simp [hhead] at hsome⟩
  · next isAsync target ts' hhead =>
    obtain ⟨hplain, rfl⟩ := eq_append_of_clauseHead? hhead
    simp only [Option.bind_eq_bind, Option.bind_eq_some_iff, Option.pure_def, Option.some.injEq,
      Prod.mk.injEq, Prod.exists] at h
    obtain ⟨x, mid, hparse, fs, rest', hfilters, cs, rest'', hclauses, rfl, rfl⟩ := h
    obtain ⟨us, rfl, hx, -⟩ := hn.parse (by decide) hparse
    obtain ⟨vs, rfl, hfs⟩ := hn.filters hfilters
    obtain ⟨⟨ws, rfl, hcs⟩, -⟩ := hn.clauses hclauses
    exact ⟨⟨clauseHead isAsync target ++ (us ++ (vs ++ ws)), by simp,
      Derives.clauses hplain hx hfs hcs⟩, fun _ => ⟨_, _, rfl⟩⟩

/-- What is read as filters is derived as such. -/
theorem Sound.filters_succ {ts rest : List Token} {e : Expr}
    (h : Python.filters (n + 1) ts = some (e, rest)) :
    ∃ us, ts = us ++ rest ∧ Derives .filters e us := by
  simp only [Python.filters] at h
  split at h
  · obtain ⟨rfl, rfl⟩ := Prod.mk.inj (Option.some.inj h)
    exact ⟨[], rfl, Derives.noFilters⟩
  · next hif =>
    obtain rfl := eq_cons_of_expect hif
    simp only [Option.bind_eq_bind, Option.bind_eq_some_iff, Option.pure_def, Option.some.injEq,
      Prod.mk.injEq, Prod.exists] at h
    obtain ⟨x, mid, hparse, fs, rest', hfilters, rfl, rfl⟩ := h
    obtain ⟨us, rfl, hx, -⟩ := hn.parse (by decide) hparse
    obtain ⟨vs, rfl, hfs⟩ := hn.filters hfilters
    exact ⟨.word "if" :: us ++ vs, by simp, Derives.filters hx hfs⟩

end Sound

/-- With any amount of fuel, the parser reads nothing that is not derived. -/
theorem sound (n : Nat) : Sound n := by
  induction n with
  | zero =>
      constructor
      all_goals
        intros
        rename_i h
        simp [parse, climb, contents, arguments, more, item, clauses, filters] at h
  | succ n ih =>
      exact {
        parse := fun hl h => ih.parse_succ hl h
        climb := fun hl he hready h => ih.climb_succ hl he hready h
        contents := fun h => ih.contents_succ h
        arguments := fun h => ih.arguments_succ h
        more := fun h => ih.more_succ h
        item := fun h => ih.item_succ h
        clauses := fun h => ih.clauses_succ h
        filters := fun h => ih.filters_succ h }

end TypedSyntax.Python
