import TypedSyntax.Proofs.Python.Written

/-!
# Reading written expressions

A written expression reads back as itself without its parentheses exactly when
it is tight.
-/

namespace TypedSyntax.Python

open TypedSyntax.Python.Expr

attribute [local simp] write tight bare

theorem Token.not_round_of_isAtom {tok : Token} (h : tok.isAtom = true) : tok.isRound = false := by
  cases tok with
  | mark => cases h
  | _ => rfl

/-- What a bracket stands for, with the commas of a written display. -/
theorem Bracket.enclose_eq (b : Bracket) (e es : Expr) :
    (b = .round ∧ es = .none ∧ b.enclose e es = e) ∨
      (b.enclose e es = .display b (.cons e es) ∧ b.ending (.cons e es) = []) := by
  cases b <;> cases es <;> simp [enclose, ending]

theorem balanced_clauseHead (isAsync : Bool) (target : String) :
    Balanced (clauseHead isAsync target) := by
  have hfor : Balanced [.word "for", .word target, .word "in"] :=
    balanced_cons rfl (balanced_cons rfl (balanced_cons rfl balanced_nil))
  cases isAsync with
  | true => exact balanced_cons rfl hfor
  | false => exact hfor

/-! ## What a derivation determines -/

def Form.place : Form → Place
  | .more _ => .further
  | .arguments => .first
  | .clauses => .clauses
  | .filters => .filters
  | _ => .whole

/-- The tokens of an expression from the tokens of a form. -/
def Form.outer : Form → List Token → List Token
  | .contents b, ts => b.around ts
  | _, ts => ts

/-- An expression determines the tokens that are no round bracket. -/
theorem Derives.solid_eq {f : Form} {e : Expr} {ts : List Token} (h : Derives f e ts) :
    solid (f.outer ts) = solid (e.write f.place) := by
  induction h with
  | atom | noMore | noArguments | noClauses | noFilters => rfl
  | bracket _ _ ih | comparison _ _ ih | plain _ ih => exact ih
  | unary _ _ ih =>
      simp only [Form.outer, Form.place, write, solid_cons] at ih ⊢
      omega
  | member _ _ _ ih =>
      simp only [Form.outer, Form.place, write, solid_append] at ih ⊢
      omega
  | binary _ _ _ _ iha ihb | first _ _ _ iha ihb | next _ _ _ iha ihb | entry _ _ iha ihb
  | more _ _ iha ihb | arguments _ _ iha ihb | filters _ _ iha ihb =>
      simp only [Form.outer, Form.place, write, solid_append, solid_cons] at iha ihb ⊢
      omega
  | call _ _ _ iha ihb =>
      simp only [Form.outer, Form.place, write, Bracket.around, solid_append, solid_cons]
        at iha ihb ⊢
      omega
  | @empty b => cases b <;> rfl
  | @items b e es x ts us _ _ hx ihe ihes =>
      subst hx
      simp only [Form.outer, Form.place, solid_around, solid_append] at ihe ihes ⊢
      rcases b.enclose_eq e es with ⟨rfl, rfl, heq⟩ | ⟨heq, hending⟩
      · rw [heq, ihe, ihes]
        rfl
      · rw [heq, write, hending, List.append_nil, solid_around, write, solid_append, ihe, ihes]
  | @singleton e ts _ ih =>
      simp only [Form.outer, Form.place, solid_around, solid_append] at ih ⊢
      rw [ih, write, solid_around, solid_append, write, solid_append]
      rfl
  | @entries k v es ts us vs _ _ _ ihk ihv ihes =>
      simp only [Form.outer, Form.place, solid_around, write, Bracket.ending, solid_append,
        solid_cons, solid_nil] at ihk ihv ihes ⊢
      omega
  | @comprehension b e c cs ts us _ _ ihe ihcs =>
      simp only [Form.outer, Form.place, solid_around, solid_append] at ihe ihcs ⊢
      rw [ihe, ihcs, write, solid_around, solid_append]
  | clauses _ _ _ _ ihe ihfs ihcs =>
      simp only [Form.outer, Form.place, write, solid_append] at ihe ihfs ihcs ⊢
      omega

/-- Brackets are balanced in all derived tokens. -/
theorem Derives.balanced {f : Form} {e : Expr} {ts : List Token} (h : Derives f e ts) :
    Balanced ts := by
  induction h with
  | atom _ hatom => exact balanced_cons (Token.not_round_of_isAtom hatom) balanced_nil
  | @bracket _ b _ _ _ _ ih => exact ih.around b
  | unary _ _ ih => exact balanced_cons (by simp) ih
  | binary _ _ _ _ iha ihb | first _ _ _ iha ihb | next _ _ _ iha ihb =>
      exact iha.append (balanced_cons (by simp) ihb)
  | comparison _ _ ih | plain _ ih => exact ih
  | member _ _ _ ih =>
      exact ih.append (balanced_cons (by decide) (balanced_cons rfl balanced_nil))
  | @call _ _ _ ts us _ _ _ ihf ihargs =>
      have htokens : ts ++ Bracket.round.opening :: us ++ [Bracket.round.closing] =
          ts ++ Bracket.round.around us := by
        simp [Bracket.around]
      rw [htokens]
      exact ihf.append (ihargs.around .round)
  | entry _ _ ihk ihv => exact ihk.append (balanced_cons (by decide) ihv)
  | noMore | empty | noArguments | noClauses | noFilters => exact balanced_nil
  | more _ _ ihe ihes => exact (balanced_cons (by decide) ihe).append ihes
  | items _ _ _ ihe ihes => exact ihe.append ihes
  | singleton _ ih => exact ih.append (balanced_cons (by decide) balanced_nil)
  | entries _ _ _ ihk ihv ihes =>
      exact (ihk.append (balanced_cons (by decide) ihv)).append ihes
  | comprehension _ _ ihe ihcs => exact ihe.append ihcs
  | arguments _ _ ihe ihes => exact ihe.append ihes
  | clauses _ _ _ _ ihe ihfs ihcs =>
      exact (balanced_clauseHead _ _).append (ihe.append (ihfs.append ihcs))
  | filters _ _ ihe ihfs => exact (balanced_cons (by decide) ihe).append ihfs

/-- Whether an expression can stand by itself. -/
def Expr.isValue : Expr → Bool
  | .pair .. | .clause .. | .none | .cons .. => false
  | _ => true

def Form.isValue : Form → Bool
  | .level _ | .chain | .contents _ => true
  | _ => false

/-- What is derived as an expression can stand by itself. -/
theorem Derives.isValue {f : Form} {e : Expr} {ts : List Token} (h : Derives f e ts)
    (hf : f.isValue = true) : e.isValue = true := by
  induction h with
  | bracket _ _ ih | comparison _ _ ih => exact ih rfl
  | @items b e es _ _ _ _ _ hx ih =>
      subst hx
      rcases b.enclose_eq e es with ⟨-, -, heq⟩ | ⟨heq, -⟩
      · rw [heq]
        exact ih rfl
      · rw [heq]
        rfl
  | plain | entry | noMore | more | noArguments | arguments | noClauses | clauses | noFilters
  | filters => cases hf
  | _ => rfl

/-! ## Shaped expressions -/

def Role.place : Role → Place
  | .whole => .whole
  | .items _ => .further
  | .clauses => .clauses
  | .filters => .filters

theorem Shaped.isValue {w : Expr} (h : Shaped .whole w) : w.bare.isValue = true := by
  generalize hrole : Role.whole = role at h
  induction h with
  | group _ _ ih => exact ih hrole
  | noItems | item | entry | noClauses | clause | noFilters | filter => cases hrole
  | _ => rfl

theorem Dotted.bare_eq {e : Expr} (h : Dotted e) : e.bare = e := by
  induction h with
  | name => rfl
  | member _ _ ih => rw [bare, ih]

theorem Dotted.balanced {e : Expr} (h : Dotted e) : Balanced (e.write .whole) := by
  induction h with
  | name => exact balanced_cons rfl balanced_nil
  | member _ _ ih => exact ih.append (balanced_cons (by decide) (balanced_cons rfl balanced_nil))

theorem Bracket.balanced_ending (b : Bracket) (items : Expr) : Balanced (b.ending items) := by
  unfold ending
  split
  · exact balanced_cons (by decide) balanced_nil
  · exact balanced_nil

/-- The first items are the further ones without a comma before them. -/
theorem Shaped.first_of_further {P : List Token → Prop} {entry : Bool} {w : Expr}
    (h : Shaped (.items entry) w) (hnil : P [])
    (hcons : ∀ ts, P (.comma :: ts) → P ts) (hP : P (w.write .further)) : P (w.write .first) := by
  cases h with
  | noItems => exact hnil
  | item | entry => exact hcons _ hP

theorem Balanced.tail {tok : Token} {ts : List Token} (htok : tok.isRound = false)
    (h : Balanced (tok :: ts)) : Balanced ts := by
  intro n
  have hn := h n
  simp only [Token.isRound, Bool.or_eq_false_iff, decide_eq_false_iff_not] at htok
  simpa only [depth, if_neg htok.1, if_neg htok.2] using hn

/-- Brackets are balanced in all written tokens. -/
theorem Shaped.balanced {role : Role} {w : Expr} (h : Shaped role w) :
    Balanced (w.write role.place) := by
  induction h with
  | atom hatom => exact balanced_cons (Token.not_round_of_isAtom hatom) balanced_nil
  | group _ _ ih => exact ih.around .round
  | unary _ ih => exact balanced_cons (by simp) ih
  | binary _ _ iha ihb => exact iha.append (balanced_cons (by simp) ihb)
  | call hf hargs ih =>
      have hfirst := hargs.first_of_further balanced_nil (fun _ => Balanced.tail rfl) ih
      exact hf.balanced.append (hfirst.around .round)
  | @display b items hitems ih | @mapping items hitems ih =>
      have hfirst := hitems.first_of_further balanced_nil (fun _ => Balanced.tail rfl) ih
      exact (hfirst.append (Bracket.balanced_ending _ items)).around _
  | @comprehension b _ _ _ _ _ ihe ihcs => exact (ihe.append ihcs).around b
  | noItems | noClauses | noFilters => exact balanced_nil
  | item _ _ ihe ihes | filter _ _ ihe ihes => exact (balanced_cons rfl ihe).append ihes
  | entry _ _ _ ihk ihv ihes =>
      exact (balanced_cons rfl (ihk.append (balanced_cons rfl ihv))).append ihes
  | clause _ _ _ _ ihe ihfs ihcs =>
      exact (balanced_clauseHead _ _).append (ihe.append (ihfs.append ihcs))

/-- The ending of a display does not depend on parentheses inside it. -/
theorem Shaped.ending_bare {entry : Bool} {items : Expr} (h : Shaped (.items entry) items)
    (b : Bracket) : b.ending items.bare = b.ending items := by
  cases h with
  | noItems => rfl
  | item _ hes | entry _ _ hes => cases b <;> cases hes <;> rfl

theorem Shaped.solid_first {entry : Bool} {items : Expr} (h : Shaped (.items entry) items)
    (hfurther : solid (items.bare.write .further) = solid (items.write .further)) :
    solid (items.bare.write .first) = solid (items.write .first) := by
  cases h with
  | noItems => rfl
  | item | entry =>
      simp only [bare, write, List.cons_append, solid_cons] at hfurther ⊢
      omega

/-- Written parentheses are round brackets. -/
theorem Shaped.solid_bare {role : Role} {w : Expr} (h : Shaped role w) :
    solid (w.bare.write role.place) = solid (w.write role.place) := by
  induction h with
  | atom | noItems | noClauses | noFilters => rfl
  | group _ _ ih =>
      have hround : solid [Bracket.round.opening, Bracket.round.closing] = 0 := rfl
      rw [bare, Role.place, write, solid_around, hround]
      exact ih
  | unary _ ih =>
      simp only [Role.place, bare, write, solid_cons] at ih ⊢
      omega
  | call hf hargs ih =>
      have hfirst := hargs.solid_first ih
      simp only [Role.place, bare, write, solid_around, solid_append, hf.bare_eq, hfirst]
  | display hitems ih | mapping hitems ih =>
      have hfirst := hitems.solid_first ih
      simp only [Role.place, bare, write, solid_around, solid_append, hitems.ending_bare, hfirst]
  | binary _ _ iha ihb | comprehension _ _ iha ihb | item _ _ iha ihb | filter _ _ iha ihb =>
      simp only [Role.place, bare, write, solid_around, solid_append, solid_cons] at iha ihb ⊢
      omega
  | entry _ _ _ ihk ihv ihes =>
      simp only [Role.place, bare, write, solid_append, solid_cons] at ihk ihv ihes ⊢
      omega
  | clause _ _ _ _ ihe ihfs ihcs =>
      simp only [Role.place, bare, write, solid_append] at ihe ihfs ihcs ⊢
      omega

/-! ## Tight expressions are derived -/

/-- The derivation that a tight expression of a role has. -/
def Derived : Role → Expr → Prop
  | .whole, w => ∀ l ≤ w.level, Derives (.level l) w.bare (w.write .whole)
  | .items entry, w => w = .none ∨ ∃ e es, w = .cons e es ∧
      Derives (.item entry) e.bare (e.write .whole) ∧
        Derives (.more entry) es.bare (es.write .further)
  | .clauses, w => Derives .clauses w.bare (w.write .clauses)
  | .filters, w => Derives .filters w.bare (w.write .filters)

theorem Expr.one_le_level (e : Expr) : 1 ≤ e.level := by
  unfold level
  split
  · next op _ => cases op <;> decide
  · next op _ _ => cases op <;> decide
  · decide

theorem Derived.first {w : Expr} (h : Derived .whole w) :
    Derives (.level 1) w.bare (w.write .whole) :=
  h 1 w.one_le_level

/-- Tight items are derived as further items. -/
theorem Derived.more {entry : Bool} {w : Expr} (h : Derived (.items entry) w) :
    Derives (.more entry) w.bare (w.write .further) := by
  rcases h with rfl | ⟨e, es, rfl, he, hes⟩
  · exact Derives.noMore
  · exact Derives.more he hes

/-- A name with dots is derived as its members. -/
theorem Dotted.derives {e : Expr} (h : Dotted e) {l : Nat} (hl : l ≤ 10) :
    Derives (.level l) e (e.write .whole) := by
  induction h generalizing l with
  | name hw => exact Derives.atom hl hw
  | member hw _ ih => exact Derives.member hl hw (ih (Nat.le_refl _))

/-- Tight items are derived as the arguments of a call. -/
theorem Derived.arguments {w : Expr} (h : Derived (.items false) w) :
    Derives .arguments w.bare (w.write .first) := by
  rcases h with rfl | ⟨e, es, rfl, he, hes⟩
  · exact Derives.noArguments
  · cases he with
    | plain he => exact Derives.arguments he hes

/-- The items of a display. Only mappings have entries. -/
theorem Derives.display {b : Bracket} {entry : Bool} {e es : Expr} {ts us : List Token}
    (he : Derives (.item entry) e ts) (hes : Derives (.more entry) es us)
    (hb : entry = true → b = .curly) :
    Derives (.contents b) (.display b (.cons e es)) (ts ++ us ++ b.ending (.cons e es)) := by
  cases he with
  | plain he =>
      rcases b.enclose_eq e es with ⟨rfl, rfl, -⟩ | ⟨heq, hending⟩
      · cases hes with
        | noMore =>
            rw [List.append_nil]
            exact Derives.singleton he
      · rw [hending, List.append_nil]
        exact Derives.items he hes heq.symm
  | entry hk hv =>
      obtain rfl := hb rfl
      have hentries := Derives.entries hk hv hes
      simpa [Bracket.ending] using hentries

/-- Tight items in brackets are derived as a display. -/
theorem Derived.display {b : Bracket} {entry : Bool} {items : Expr}
    (h : Derived (.items entry) items) (hitems : Shaped (.items entry) items)
    (hb : entry = true → b = .curly) {l : Nat} (hl : l ≤ 10) :
    Derives (.level l) (.display b items.bare) ((display b items).write .whole) := by
  rw [write, ← hitems.ending_bare]
  apply Derives.bracket hl
  rcases h with rfl | ⟨e, es, rfl, he, hes⟩
  · cases b <;> exact Derives.empty
  · exact he.display hes hb

/-- A tight expression is derived from what is written, without its parentheses. -/
theorem Shaped.derived {role : Role} {w : Expr} (h : Shaped role w) (htight : w.tight = true) :
    Derived role w := by
  induction h with
  | atom hatom => exact fun l hl => Derives.atom hl hatom
  | @group e _ he ih =>
      intro l hl
      have hinside := Derives.items (b := .round) (ih htight).first Derives.noMore rfl
      rw [List.append_nil] at hinside
      exact Derives.bracket hl hinside
  | unary _ ih =>
      intro l hl
      simp only [tight, Bool.and_eq_true, decide_eq_true_eq] at htight
      exact Derives.unary hl (ih htight.2 _ htight.1)
  | @binary op a b _ _ iha ihb =>
      intro l hl
      simp only [tight, Bool.and_eq_true, decide_eq_true_eq] at htight
      obtain ⟨⟨hleft, hright⟩, ha, hb⟩ := htight
      cases hop : op.isComparison with
      | false => exact Derives.binary hl hop (iha ha _ hleft) (ihb hb _ hright)
      | true =>
          have hlevel : l ≤ 4 := Nat.le_trans hl (Nat.le_of_eq (op.levels_of_isComparison hop).2.1)
          exact Derives.comparison hlevel (Derives.first hop (iha ha _ hleft) (ihb hb _ hright))
  | call hf _ ih =>
      intro l hl
      simp only [tight, Bool.and_eq_true] at htight
      have hcall := Derives.call hl (hf.derives (Nat.le_refl _)) (ih htight.2).arguments
      rw [bare, hf.bare_eq, write]
      simpa [Bracket.around] using hcall
  | display hitems ih => exact fun l hl => (ih htight).display hitems (fun h => by cases h) hl
  | mapping hitems ih => exact fun l hl => (ih htight).display hitems (fun _ => rfl) hl
  | comprehension _ _ ihe ihcs =>
      intro l hl
      rw [tight, Bool.and_eq_true] at htight
      exact Derives.bracket hl (Derives.comprehension (ihe htight.1).first (ihcs htight.2))
  | noItems => exact Or.inl rfl
  | item _ _ ihe ihes =>
      simp only [tight, Bool.and_eq_true] at htight
      exact Or.inr ⟨_, _, rfl, Derives.plain (ihe htight.1).first, (ihes htight.2).more⟩
  | entry _ _ _ ihk ihv ihes =>
      simp only [tight, Bool.and_eq_true] at htight
      exact Or.inr ⟨_, _, rfl, Derives.entry (ihk htight.1.1).first (ihv htight.1.2).first,
        (ihes htight.2).more⟩
  | noClauses => exact Derives.noClauses
  | clause htarget _ _ _ ihe ihfs ihcs =>
      simp only [tight, Bool.and_eq_true] at htight
      exact Derives.clauses htarget (ihe htight.1.1).first (ihfs htight.1.2) (ihcs htight.2)
  | noFilters => exact Derives.noFilters
  | filter _ _ ihe ihes =>
      simp only [tight, Bool.and_eq_true] at htight
      exact Derives.filters (ihe htight.1).first (ihes htight.2)

/-! ## Derived expressions are tight -/

/-- Lists do not begin with a round bracket. -/
theorem Shaped.apart {role : Role} {w : Expr} (h : Shaped role w) (hrole : role ≠ .whole) :
    Apart (w.write role.place) := by
  cases h with
  | noItems | noClauses | noFilters => exact apart_nil
  | item | entry | filter => exact apart_cons (by decide)
  | @clause isAsync => cases isAsync <;> exact apart_cons (by decide)
  | _ => exact (hrole rfl).elim

theorem Bracket.around_inj {b c : Bracket} {ts us : List Token} (h : b.around ts = c.around us) :
    b = c ∧ ts = us := by
  simp only [around, List.cons_append, List.cons.injEq] at h
  obtain ⟨hopening, htail⟩ := h
  have hb := congrArg Token.bracket? hopening
  simp only [Token.bracket?_opening, Option.some.injEq] at hb
  subst hb
  exact ⟨rfl, (List.append_inj' htail rfl).1⟩

section

variable {l : Nat} {b c : Bracket} {e f x y : Expr} {ts : List Token}

/-- The expressions that have brackets of their own. -/
def Expr.isBracketed : Expr → Bool
  | .display .. | .comprehension .. => true
  | _ => false

/-- The tokens of an expression in parentheses. -/
def Parenthesized (e : Expr) (ts : List Token) : Prop :=
  ∃ us, ts = Bracket.round.around us ∧ Derives (.level 1) e us

/-- Brackets around an expression that has none of its own are parentheses. -/
theorem Derives.parenthesized (h : Derives (.contents b) e ts) (he : e.isBracketed = false) :
    Parenthesized e (b.around ts) := by
  cases h with
  | empty | singleton | entries | comprehension => cases he
  | @items _ x xs _ ts us hx hxs heq =>
      subst heq
      rcases b.enclose_eq x xs with ⟨rfl, rfl, heq⟩ | ⟨heq, -⟩
      · cases hxs with
        | noMore =>
            rw [heq, List.append_nil]
            exact ⟨ts, rfl, hx⟩
      · rw [heq] at he
        cases he

/-- An operation with one operand stands in parentheses, or begins with its symbol. -/
theorem Derives.unary_cases {op : UnaryOperator} (h : Derives (.level l) (.unary op e) ts) :
    Parenthesized (.unary op e) ts ∨
      l ≤ op.level ∧ ∃ us, ts = op.symbol :: us ∧ Derives (.level op.level) e us := by
  cases h with
  | bracket _ hcontents => exact Or.inl (hcontents.parenthesized rfl)
  | unary hl he => exact Or.inr ⟨hl, _, rfl, he⟩
  | comparison _ hchain => cases hchain

/-- An operation stands in parentheses, or has its symbol between its operands. -/
theorem Derives.binary_cases {op : BinaryOperator} (h : Derives (.level l) (.binary op x y) ts) :
    Parenthesized (.binary op x y) ts ∨
      l ≤ op.level ∧ ∃ us vs, ts = us ++ op.symbol :: vs ∧
        Derives (.level op.left) x us ∧ Derives (.level op.right) y vs := by
  cases h with
  | bracket _ hcontents => exact Or.inl (hcontents.parenthesized rfl)
  | binary hl _ hx hy => exact Or.inr ⟨hl, _, _, rfl, hx, hy⟩
  | comparison hl hchain =>
      cases hchain with
      | first hop hx hy =>
          have hlevel : op.level = 4 := (op.levels_of_isComparison hop).2.1
          exact Or.inr ⟨by omega, _, _, rfl, hx, hy⟩

/-- A call stands in parentheses, or ends with its arguments in brackets. -/
theorem Derives.call_cases (h : Derives (.level l) (.call f x) ts) :
    Parenthesized (.call f x) ts ∨ ∃ us vs, ts = us ++ Bracket.round.around vs ∧
      Derives (.level 10) f us ∧ Derives .arguments x vs := by
  cases h with
  | bracket _ hcontents => exact Or.inl (hcontents.parenthesized rfl)
  | comparison _ hchain => cases hchain
  | call _ hf hx => exact Or.inr ⟨_, _, by simp [Bracket.around], hf, hx⟩

/-- An expression with brackets of its own is derived as the contents of brackets. -/
theorem Derives.bracketed_cases (h : Derives (.level l) e ts) (he : e.isBracketed = true) :
    ∃ c us, ts = Bracket.around c us ∧ Derives (.contents c) e us := by
  cases h with
  | bracket _ hcontents => exact ⟨_, _, rfl, hcontents⟩
  | comparison _ hchain => cases hchain <;> cases he
  | _ => cases he

/-- The contents of brackets are a display in parentheses, or the items of one. -/
theorem Derives.display_cases (h : Derives (.contents c) (.display b e) ts) :
    (c = .round ∧ Derives (.level 1) (.display b e) ts) ∨ c = b ∧
      ((e = .none ∧ ts = []) ∨ ∃ entry x y us vs, e = .cons x y ∧
        ts = us ++ vs ++ b.ending e ∧ Derives (.item entry) x us ∧ Derives (.more entry) y vs) := by
  cases h with
  | empty => exact Or.inr ⟨rfl, Or.inl ⟨rfl, rfl⟩⟩
  | @items _ x y _ us vs hx hy heq =>
      rcases c.enclose_eq x y with ⟨rfl, rfl, hround⟩ | ⟨hdisplay, hending⟩
      · cases hy with
        | noMore =>
            rw [List.append_nil, heq, hround]
            exact Or.inl ⟨rfl, hx⟩
      · rw [hdisplay] at heq
        cases heq
        have htokens : us ++ vs = us ++ vs ++ b.ending (.cons x y) := by
          rw [hending, List.append_nil]
        exact Or.inr ⟨rfl, Or.inr ⟨false, x, y, us, vs, rfl, htokens, Derives.plain hx, hy⟩⟩
  | @singleton x us hx =>
      exact Or.inr ⟨rfl, Or.inr
        ⟨false, x, .none, us, [], rfl, by simp [Bracket.ending], Derives.plain hx, Derives.noMore⟩⟩
  | entries hk hv hy =>
      exact Or.inr ⟨rfl, Or.inr
        ⟨true, _, _, _, _, rfl, by simp [Bracket.ending], Derives.entry hk hv, hy⟩⟩

/-- The contents of brackets are a comprehension in parentheses, or an element and its
clauses. -/
theorem Derives.comprehension_cases (h : Derives (.contents c) (.comprehension b x y) ts) :
    (c = .round ∧ Derives (.level 1) (.comprehension b x y) ts) ∨ c = b ∧
      ∃ us vs, ts = us ++ vs ∧ Derives (.level 1) x us ∧ Derives .clauses y vs := by
  cases h with
  | @items _ x y _ us vs hx hy heq =>
      rcases c.enclose_eq x y with ⟨rfl, rfl, hround⟩ | ⟨hdisplay, -⟩
      · cases hy with
        | noMore =>
            rw [List.append_nil, heq, hround]
            exact Or.inl ⟨rfl, hx⟩
      · rw [hdisplay] at heq
        cases heq
  | comprehension hx hy => exact Or.inr ⟨rfl, _, _, rfl, hx, hy⟩

theorem Derives.more_cases {entry : Bool} (h : Derives (.more entry) (.cons x y) ts) :
    ∃ us vs, ts = .comma :: us ++ vs ∧
      Derives (.item entry) x us ∧ Derives (.more entry) y vs := by
  cases h with
  | more hx hy => exact ⟨_, _, rfl, hx, hy⟩

theorem Derives.entry_cases (h : Derives (.item true) (.pair x y) ts) :
    ∃ us vs, ts = us ++ .colon :: vs ∧ Derives (.level 1) x us ∧ Derives (.level 1) y vs := by
  cases h with
  | entry hx hy => exact ⟨_, _, rfl, hx, hy⟩

theorem Derives.filters_cases (h : Derives .filters (.cons x y) ts) :
    ∃ us vs, ts = .word "if" :: us ++ vs ∧ Derives (.level 1) x us ∧ Derives .filters y vs := by
  cases h with
  | filters hx hy => exact ⟨_, _, rfl, hx, hy⟩

theorem Derives.clauses_cases {isAsync : Bool} {target : String}
    (h : Derives .clauses (.cons (.clause isAsync target e x) y) ts) :
    ∃ us vs ws, ts = clauseHead isAsync target ++ (us ++ (vs ++ ws)) ∧
      Derives (.level 1) e us ∧ Derives .filters x vs ∧ Derives .clauses y ws := by
  cases h with
  | clauses _ he hx hy => exact ⟨_, _, _, rfl, he, hx, hy⟩

/-- Arguments are like further items after a comma. -/
theorem Derives.arguments_cases (h : Derives .arguments e ts) :
    e = .none ∨ Derives (.more false) e (.comma :: ts) := by
  cases h with
  | noArguments => exact Or.inl rfl
  | arguments he hes => exact Or.inr (Derives.more (Derives.plain he) hes)

end

/-- Lists do not begin with a round bracket in any derivation. -/
theorem Derives.apart {f : Form} {e : Expr} {ts : List Token} (h : Derives f e ts)
    (hf : f.place ≠ .whole ∧ f.place ≠ .first) : Apart ts := by
  cases h with
  | noMore | noClauses | noFilters => exact apart_nil
  | more | filters => exact apart_cons (by decide)
  | @clauses isAsync => cases isAsync <;> exact apart_cons (by decide)
  | noArguments | arguments => exact (hf.2 rfl).elim
  | _ => exact (hf.1 rfl).elim

/-- A written expression ends where a derivation of it ends. -/
theorem Shaped.split {role : Role} {w : Expr} {f : Form} {ts us vs : List Token}
    (hw : Shaped role w) (h : Derives f w.bare ts) (houter : f.outer ts = ts)
    (hplace : f.place = role.place) (heq : ts ++ us = w.write role.place ++ vs)
    (hus : Apart us) (hvs : Apart vs) : ts = w.write role.place ∧ us = vs := by
  apply split_unique heq _ hus hvs
  calc
    solid ts = solid (f.outer ts) := by rw [houter]
    _ = solid (w.bare.write f.place) := h.solid_eq
    _ = solid (w.bare.write role.place) := by rw [hplace]
    _ = solid (w.write role.place) := hw.solid_bare

/-- A name with dots begins with a word. -/
theorem Dotted.begins {f : Expr} (h : Dotted f) :
    ∃ w ts, f.write .whole = .word w :: ts := by
  induction h with
  | name => exact ⟨_, _, rfl⟩
  | member _ _ ih =>
      obtain ⟨w, ts, heq⟩ := ih
      exact ⟨w, _, by rw [write, heq, List.cons_append]⟩

theorem Dotted.tight {f : Expr} (h : Dotted f) : f.tight = true := by
  induction h with
  | name => rfl
  | member _ _ ih => exact ih

/-- A name with dots is written as itself or in parentheses. -/
theorem Dotted.derives_cases {f : Expr} {l : Nat} {ts : List Token} (h : Dotted f)
    (hts : Derives (.level l) f ts) :
    ts = f.write .whole ∨ ∃ us, ts = Bracket.round.opening :: us := by
  induction h generalizing l ts with
  | name =>
      cases hts with
      | atom => exact Or.inl rfl
      | bracket _ hcontents =>
          obtain ⟨us, heq, -⟩ := hcontents.parenthesized rfl
          exact Or.inr ⟨us ++ [Bracket.round.closing], heq⟩
      | comparison _ hchain => cases hchain
  | member _ _ ih =>
      cases hts with
      | member _ _ he =>
          rcases ih he with rfl | ⟨us, rfl⟩
          · exact Or.inl rfl
          · exact Or.inr ⟨_, rfl⟩
      | bracket _ hcontents =>
          obtain ⟨us, heq, -⟩ := hcontents.parenthesized rfl
          exact Or.inr ⟨us ++ [Bracket.round.closing], heq⟩
      | comparison _ hchain => cases hchain

theorem symbol_ne_opening (op : UnaryOperator) (b : Bracket) : op.symbol ≠ b.opening := by
  cases op <;> cases b <;> decide

/-- What a derivation of the text of a written expression of a role says. -/
def Forced : Role → Expr → Prop
  | .whole, w => ∀ l, Derives (.level l) w.bare (w.write .whole) → w.tight = true ∧ l ≤ w.level
  | .items entry, w => Derives (.more entry) w.bare (w.write .further) → w.tight = true
  | .clauses, w => Derives .clauses w.bare (w.write .clauses) → w.tight = true
  | .filters, w => Derives .filters w.bare (w.write .filters) → w.tight = true

/-- The items of a written display are tight if they are derived as such. -/
theorem Shaped.tight_items {entry given : Bool} {e es : Expr} {us vs : List Token}
    (h : Shaped (.items entry) (.cons e es)) (ih : Forced (.items entry) (.cons e es))
    (hus : Derives (.item given) e.bare us) (hvs : Derives (.more given) es.bare vs)
    (heq : us ++ vs = (cons e es).write .first) : (cons e es).tight = true := by
  have hgiven : given = entry := by
    cases h with
    | item he =>
        cases given with
        | false => rfl
        | true =>
            have hvalue := he.isValue
            generalize e.bare = x at hus hvalue
            cases hus with
            | entry => cases hvalue
    | entry =>
        cases given with
        | true => rfl
        | false =>
            cases hus with
            | plain hpair => cases hpair.isValue rfl
  subst hgiven
  apply ih
  have hmore := Derives.more hus hvs
  rw [List.cons_append, heq] at hmore
  exact hmore

/-- A written tuple has a comma outside of all brackets inside it. -/
theorem Shaped.comma {entry : Bool} {e es : Expr} (h : Shaped (.items entry) (.cons e es)) :
    ∃ us vs, Balanced us ∧
      (cons e es).write .first ++ Bracket.round.ending (.cons e es) = us ++ .comma :: vs := by
  have hhead : Balanced (e.write .whole) ∧ (es = .none ∨ ∃ x xs, es = .cons x xs) := by
    cases h with
    | item he hes =>
        apply And.intro he.balanced
        cases hes with
        | noItems => exact Or.inl rfl
        | item => exact Or.inr ⟨_, _, rfl⟩
    | entry hk hv hes =>
        apply And.intro (hk.balanced.append (balanced_cons rfl hv.balanced))
        cases hes with
        | noItems => exact Or.inl rfl
        | entry => exact Or.inr ⟨_, _, rfl⟩
  obtain ⟨hbalanced, rfl | ⟨x, xs, rfl⟩⟩ := hhead
  · exact ⟨_, [], hbalanced, by simp [write, Bracket.ending]⟩
  · exact ⟨_, x.write .whole ++ xs.write .further, hbalanced, by simp [write, Bracket.ending]⟩

/-- The brackets of a display are its own, and its items end at the bracket. -/
theorem Shaped.forced_display {entry : Bool} {b : Bracket} {items : Expr}
    (h : Shaped (.items entry) items) (ih : Forced (.items entry) items) :
    Forced .whole (.display b items) := by
  intro l hd
  apply And.intro _ hd.level_le_ten
  obtain ⟨c, us, heq, hus⟩ := hd.bracketed_cases rfl
  obtain ⟨rfl, rfl⟩ := Bracket.around_inj heq
  cases items with
  | none => rfl
  | cons e es =>
      rcases hus.display_cases with ⟨rfl, hround⟩ | ⟨-, ⟨hnone, -⟩ | hitems⟩
      · obtain ⟨c, vs, hc, hvs⟩ := hround.bracketed_cases rfl
        have hcround : c = .round := by
          rcases hvs.display_cases with ⟨hcround, -⟩ | ⟨hcround, -⟩ <;> exact hcround
        subst hcround
        obtain ⟨us, ws, hbalanced, hcomma⟩ := h.comma
        rw [hcomma] at hc
        exact (around_ne_append hvs.balanced hbalanced rfl hc.symm).elim
      · cases hnone
      · obtain ⟨given, x, y, us, vs, hcons, htokens, hx, hy⟩ := hitems
        cases hcons
        rw [h.ending_bare b] at htokens
        exact h.tight_items ih hx hy (List.append_cancel_right htokens).symm
  | _ => cases h

theorem Shaped.clauses_ne_nil {e es : Expr} (h : Shaped .clauses (.cons e es)) :
    ∃ tok ts, (cons e es).write .clauses = tok :: ts := by
  cases h with
  | @clause isAsync => cases isAsync <;> exact ⟨_, _, rfl⟩

/-- The brackets around an operation are its own, since neither form of an operation begins
with a bracket that ends where it does. -/
theorem Shaped.forced_group {e : Expr} (he : e.isOperation = true) (h : Shaped .whole e)
    (ih : Forced .whole e) : Forced .whole (.group e) := by
  intro l hd
  apply And.intro _ hd.level_le_ten
  have hbalanced := h.balanced
  have hinside : Parenthesized e.bare (Bracket.round.around (e.write .whole)) := by
    cases h with
    | @unary op =>
        rcases hd.unary_cases with hinside | ⟨-, us, heq, -⟩
        · exact hinside
        · exact (symbol_ne_opening op .round (List.cons.inj heq).1.symm).elim
    | @binary op =>
        rcases hd.binary_cases with hinside | ⟨-, us, vs, heq, hx, -⟩
        · exact hinside
        · exact (around_ne_append hbalanced hx.balanced (isRound_binary op) heq).elim
    | _ => cases he
  obtain ⟨us, heq, hus⟩ := hinside
  obtain ⟨-, rfl⟩ := Bracket.around_inj heq
  exact (ih 1 hus).1

/-- After the symbol of an operation the whole rest is its operand. -/
theorem Shaped.forced_unary {op : UnaryOperator} {e : Expr} (ih : Forced .whole e) :
    Forced .whole (.unary op e) := by
  intro l hd
  rcases hd.unary_cases with ⟨us, heq, -⟩ | ⟨hl, us, heq, hus⟩
  · exact (symbol_ne_opening op .round (List.cons.inj heq).1).elim
  · obtain ⟨-, rfl⟩ := List.cons.inj heq
    obtain ⟨htight, hlevel⟩ := ih _ hus
    apply And.intro _ hl
    simp only [tight, Bool.and_eq_true, decide_eq_true_eq]
    exact ⟨hlevel, htight⟩

/-- The symbol of an operation stands where its left operand ends. -/
theorem Shaped.forced_binary {op : BinaryOperator} {a b : Expr} (ha : Shaped .whole a)
    (iha : Forced .whole a) (ihb : Forced .whole b) : Forced .whole (.binary op a b) := by
  intro l hd
  rcases hd.binary_cases with ⟨us, heq, hus⟩ | ⟨hl, us, vs, heq, hus, hvs⟩
  · exact (around_ne_append hus.balanced ha.balanced (isRound_binary op) heq.symm).elim
  · obtain ⟨rfl, htail⟩ := ha.split hus rfl rfl heq.symm (apart_cons (isRound_binary op))
      (apart_cons (isRound_binary op))
    obtain ⟨-, rfl⟩ := List.cons.inj htail
    obtain ⟨htighta, hleft⟩ := iha _ hus
    obtain ⟨htightb, hright⟩ := ihb _ hvs
    apply And.intro _ hl
    simp only [tight, Bool.and_eq_true, decide_eq_true_eq]
    exact ⟨⟨hleft, hright⟩, htighta, htightb⟩

/-- The arguments of a call are between the last brackets. -/
theorem Shaped.forced_call {f args : Expr} (hf : Dotted f) (hargs : Shaped (.items false) args)
    (ih : Forced (.items false) args) : Forced .whole (.call f args) := by
  intro l hd
  apply And.intro _ hd.level_le_ten
  obtain ⟨w, ws, hname⟩ := hf.begins
  rcases hd.call_cases with ⟨us, heq, -⟩ | ⟨us, vs, heq, hus, hvs⟩
  · rw [write, hname] at heq
    cases (List.cons.inj heq).1
  · rw [hf.bare_eq] at hus
    rcases hf.derives_cases hus with rfl | ⟨us, rfl⟩
    · obtain ⟨-, rfl⟩ := Bracket.around_inj (List.append_cancel_left heq)
      rw [tight, hf.tight, Bool.true_and]
      cases args with
      | none => rfl
      | cons e es =>
          rcases hvs.arguments_cases with hnone | hmore
          · cases hnone
          · exact ih hmore
      | _ => cases hargs
    · rw [write, hname] at heq
      cases (List.cons.inj heq).1

/-- The element of a comprehension ends where its first clause begins. -/
theorem Shaped.forced_comprehension {b : Bracket} {e c cs : Expr} (he : Shaped .whole e)
    (hcs : Shaped .clauses (.cons c cs)) (ihe : Forced .whole e)
    (ihcs : Forced .clauses (.cons c cs)) :
    Forced .whole (.comprehension b e (.cons c cs)) := by
  intro l hd
  apply And.intro _ hd.level_le_ten
  obtain ⟨c, us, heq, hus⟩ := hd.bracketed_cases rfl
  obtain ⟨rfl, rfl⟩ := Bracket.around_inj heq
  rcases hus.comprehension_cases with ⟨rfl, hround⟩ | ⟨-, us, vs, heq, hx, hy⟩
  · obtain ⟨c', vs, hc, hvs⟩ := hround.bracketed_cases rfl
    have hcround : c' = .round := by
      rcases hvs.comprehension_cases with ⟨hcround, -⟩ | ⟨hcround, -⟩ <;> exact hcround
    subst hcround
    obtain ⟨tok, ts, htok⟩ := hcs.clauses_ne_nil
    have hround := hcs.apart nofun
    simp only [Role.place] at hround
    rw [htok] at hround hc
    exact (around_ne_append hvs.balanced he.balanced (hround tok rfl) hc.symm).elim
  · have hapart := hy.apart ⟨nofun, nofun⟩
    obtain ⟨rfl, rfl⟩ := he.split hx rfl rfl heq.symm hapart (hcs.apart nofun)
    rw [tight, Bool.and_eq_true]
    exact ⟨(ihe 1 hx).1, ihcs hy⟩

/-- An item ends at the next comma outside of brackets. -/
theorem Shaped.forced_item {e es : Expr} (he : Shaped .whole e) (hes : Shaped (.items false) es)
    (ihe : Forced .whole e) (ihes : Forced (.items false) es) :
    Forced (.items false) (.cons e es) := by
  intro hd
  obtain ⟨us, vs, heq, hus, hvs⟩ := hd.more_cases
  obtain ⟨-, htail⟩ := List.cons.inj heq
  obtain ⟨rfl, rfl⟩ := he.split hus rfl rfl htail.symm (hvs.apart ⟨nofun, nofun⟩)
    (hes.apart nofun)
  rw [tight, Bool.and_eq_true]
  cases hus with
  | plain hus => exact ⟨(ihe 1 hus).1, ihes hvs⟩

/-- A key ends at its colon and a value at the next comma. -/
theorem Shaped.forced_entry {k v es : Expr} (hk : Shaped .whole k) (hv : Shaped .whole v)
    (hes : Shaped (.items true) es) (ihk : Forced .whole k) (ihv : Forced .whole v)
    (ihes : Forced (.items true) es) : Forced (.items true) (.cons (.pair k v) es) := by
  intro hd
  obtain ⟨_, vs, heq, hentry, hvs⟩ := hd.more_cases
  obtain ⟨us, ws, rfl, hus, hws⟩ := hentry.entry_cases
  obtain ⟨-, htail⟩ := List.cons.inj heq
  have htokens : us ++ .colon :: (ws ++ vs) =
      k.write .whole ++ .colon :: (v.write .whole ++ es.write .further) := by
    simpa [write] using htail.symm
  obtain ⟨rfl, hcolon⟩ := hk.split hus rfl rfl htokens (apart_cons rfl) (apart_cons rfl)
  obtain ⟨-, hrest⟩ := List.cons.inj hcolon
  obtain ⟨rfl, rfl⟩ := hv.split hws rfl rfl hrest (hvs.apart ⟨nofun, nofun⟩)
    (hes.apart nofun)
  rw [tight, tight, Bool.and_eq_true, Bool.and_eq_true]
  exact ⟨⟨(ihk 1 hus).1, (ihv 1 hws).1⟩, ihes hvs⟩

/-- The iterable of a clause ends where its filters or the next clause begin. -/
theorem Shaped.forced_clause {isAsync : Bool} {target : String} {e fs cs : Expr}
    (he : Shaped .whole e) (hfs : Shaped .filters fs) (hcs : Shaped .clauses cs)
    (ihe : Forced .whole e) (ihfs : Forced .filters fs) (ihcs : Forced .clauses cs) :
    Forced .clauses (.cons (.clause isAsync target e fs) cs) := by
  intro hd
  obtain ⟨us, vs, ws, heq, hus, hvs, hws⟩ := hd.clauses_cases
  have hrest := List.append_cancel_left heq
  have hws' := hws.apart ⟨nofun, nofun⟩
  have hcs' := hcs.apart nofun
  obtain ⟨rfl, htail⟩ := he.split hus rfl rfl hrest.symm
    ((hvs.apart ⟨nofun, nofun⟩).append hws') ((hfs.apart nofun).append hcs')
  obtain ⟨rfl, rfl⟩ := hfs.split hvs rfl rfl htail hws' hcs'
  rw [tight, tight, Bool.and_eq_true, Bool.and_eq_true]
  exact ⟨⟨(ihe 1 hus).1, ihfs hvs⟩, ihcs hws⟩

/-- A condition ends at the next filter or clause. -/
theorem Shaped.forced_filter {e es : Expr} (he : Shaped .whole e) (hes : Shaped .filters es)
    (ihe : Forced .whole e) (ihes : Forced .filters es) : Forced .filters (.cons e es) := by
  intro hd
  obtain ⟨us, vs, heq, hus, hvs⟩ := hd.filters_cases
  obtain ⟨-, htail⟩ := List.cons.inj heq
  obtain ⟨rfl, rfl⟩ := he.split hus rfl rfl htail.symm (hvs.apart ⟨nofun, nofun⟩)
    (hes.apart nofun)
  rw [tight, Bool.and_eq_true]
  exact ⟨(ihe 1 hus).1, ihes hvs⟩

/-- A text is derived as the expression that was written, without its parentheses, only if
that is tight. -/
theorem Shaped.forced {role : Role} {w : Expr} (h : Shaped role w) : Forced role w := by
  induction h with
  | atom => exact fun l hd => ⟨rfl, hd.level_le_ten⟩
  | group he hw ih => exact hw.forced_group he ih
  | unary _ ih => exact forced_unary ih
  | binary ha _ iha ihb => exact ha.forced_binary iha ihb
  | call hf hargs ih => exact forced_call hf hargs ih
  | display hitems ih | mapping hitems ih => exact hitems.forced_display ih
  | comprehension he hcs ihe ihcs => exact he.forced_comprehension hcs ihe ihcs
  | noItems | noClauses | noFilters => exact fun _ => rfl
  | item he hes ihe ihes => exact he.forced_item hes ihe ihes
  | entry hk hv hes ihk ihv ihes => exact hk.forced_entry hv hes ihk ihv ihes
  | clause _ he hfs hcs ihe ihfs ihcs => exact he.forced_clause hfs hcs ihe ihfs ihcs
  | filter he hes ihe ihes => exact he.forced_filter hes ihe ihes

/-- The tokens of a written expression are read as the expression without its
parentheses exactly when it is tight. -/
theorem Shaped.readTokens_iff {w : Expr} (h : Shaped .whole w) :
    readTokens (w.write .whole) = some w.bare ↔ w.tight = true := by
  rw [readTokens_eq_some_iff]
  constructor
  · intro hd
    exact (h.forced 1 hd).1
  · intro htight
    exact (h.derived htight).first

end TypedSyntax.Python
