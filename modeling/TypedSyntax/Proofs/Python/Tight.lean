import TypedSyntax.Proofs.Python.Expression

/-!
# Tight expressions

Two kinds of operands are written without parentheses although an operator
stands outside of all their brackets: signed numbers, and casts without a
constructor. An expression is tight if no sign is the base of a power and every
cast has a constructor.
-/

namespace TypedSyntax.Python

/-- A number literal with a sign. -/
def isSigned (t : Term) : Bool :=
  match t.payload with
  | .literal (.int v) _ => decide (v.toInt < 0)
  | .literal (.float x) _ => !x.isNaN && !x.isInfinite && x.isNegative
  | _ => false

def nodeClear : Payload (Term × Bool) → Bool
  | .cast part target => (castName? target).isSome && part.2
  | .binary .pow lhs rhs _ => !isSigned lhs.1 && (lhs.2 && rhs.2)
  | p => p.children.all (·.2)

/-- Whether every cast has a constructor and no signed number is the base of a
power. -/
def clear : Term → Bool :=
  Term.fold fun _ => nodeClear

theorem clear_node (info : TermInfo) (p : Payload Term) :
    clear (.node info p) = nodeClear (p.map fun t => (t, clear t)) :=
  Term.fold_node _ info p

theorem level_signed (negative : Bool) (digits : String) :
    (signed negative digits).level = if negative then 8 else 10 := by
  cases negative <;> rfl

/-- A signed literal binds like an operation, any other one like a name. -/
theorem level_literalExpr (info : TermInfo) (value : LiteralValue) (type : DataType) :
    (literalExpr value type).level =
      if isSigned (.node info (.literal value type)) then 8 else 10 := by
  cases value with
  | bool b => cases b <;> rfl
  | int => exact level_signed _ _
  | float x =>
      simp only [literalExpr, doubleExpr, isSigned, Term.payload]
      by_cases hnan : x.isNaN = true
      · simp [hnan, callOf, Expr.level]
      by_cases hinfinite : x.isInfinite = true
      · simp [hnan, hinfinite, callOf, Expr.level]
      · simp [hnan, hinfinite, level_signed]
  | _ => rfl

theorem level_collectionExpr (kind : CollectionKind) (es : List Expr) :
    (collectionExpr kind es).level = 10 := by
  cases kind with
  | list | tuple => rfl
  | set => cases es <;> rfl

/-- Of the operands in a clear term only signed numbers have an operator outside
of brackets. -/
theorem level_writtenOperand {t : Term} (h : Plain .expression t) (hclear : clear t = true) :
    (writtenOperand (t, written t)).level = if isSigned t then 8 else 10 := by
  cases h with
  | literal => exact level_literalExpr _ _ _
  | collection => exact level_collectionExpr _ _
  | @cast info operand target =>
      rw [clear_node] at hclear
      obtain ⟨name, hname⟩ := Option.isSome_iff_exists.mp (Bool.and_eq_true_iff.mp hclear).1
      rw [written_node, Payload.map, nodeExpr, hname]
      rfl
  | _ => rfl

theorem tight_ofList {es : List Expr} (h : ∀ e ∈ es, e.tight = true) :
    (Expr.ofList es).tight = true := by
  induction es with
  | nil => rfl
  | cons e es ih =>
      rw [List.forall_mem_cons] at h
      exact Bool.and_eq_true_iff.mpr ⟨h.1, ih h.2⟩

theorem tight_collectionExpr (kind : CollectionKind) {es : List Expr}
    (h : ∀ e ∈ es, e.tight = true) : (collectionExpr kind es).tight = true := by
  cases kind with
  | list | tuple => exact tight_ofList h
  | set =>
      cases es with
      | nil => rfl
      | cons => exact tight_ofList h

/-- The expression of a literal is tight. -/
theorem tight_literalExpr (value : LiteralValue) (type : DataType) :
    (literalExpr value type).tight = true := by
  have hsigned : ∀ negative digits, (signed negative digits).tight = true := by
    intro negative digits
    cases negative <;> rfl
  have hdouble : ∀ x, (doubleExpr x).tight = true := by
    intro x
    unfold doubleExpr
    split
    · rfl
    split
    · rfl
    · exact hsigned _ _
  cases value with
  | bool b => cases b <;> rfl
  | int | uint => exact hsigned _ _
  | float => exact hdouble _
  | complex =>
      apply tight_ofList
      exact List.forall_mem_cons.mpr ⟨hdouble _, List.forall_mem_singleton.mpr (hdouble _)⟩
  | _ => rfl

/-- Parentheses around an operand leave it as tight as it is. -/
theorem tight_writtenOperand (t : Term) (e : Expr) : (writtenOperand (t, e)).tight = e.tight := by
  unfold writtenOperand
  split <;> rfl

/-- Children of a clear term are clear. -/
theorem clear_child {info : TermInfo} {p : Payload Term} (hclear : clear (.node info p) = true)
    {c : Term} (hc : c ∈ p.children) : clear c = true := by
  rw [clear_node] at hclear
  have hall : (p.map fun t => (t, clear t)).children.all (·.2) = true := by
    cases p with
    | cast => simpa [Payload.map, Payload.children] using (Bool.and_eq_true_iff.mp hclear).2
    | binary op lhs rhs =>
        cases op with
        | pow => simpa [Payload.map, Payload.children] using (Bool.and_eq_true_iff.mp hclear).2
        | _ => exact hclear
    | _ => exact hclear
  rw [Payload.children_map, List.all_eq_true] at hall
  exact hall (c, clear c) (List.mem_map_of_mem hc)

theorem tight_writtenList {ts : List Term} (h : ∀ t ∈ ts, (written t).tight = true) :
    (Expr.ofList (ts.map written)).tight = true := by
  apply tight_ofList
  rw [List.forall_mem_map]
  exact h

/-- Every operand of a sign or a negation binds as strongly as it asks for. -/
theorem tight_unary {info : TermInfo} {op : UnaryOperator} {operand : Term} {type : DataType}
    (hoperand : Plain .expression operand) (hclear : clear operand = true)
    (htight : (written operand).tight = true) :
    (written (.node info (.unary op operand type))).tight = true := by
  have hlevel := level_writtenOperand hoperand hclear
  have hop : op.level ≤ 8 := by cases op <;> decide
  rw [written_node, Payload.map, nodeExpr, Expr.tight, tight_writtenOperand, htight,
    Bool.and_true, decide_eq_true_eq, hlevel]
  split <;> omega

/-- Only the base of a power has to bind more strongly than a signed number. -/
theorem left_le_level {info : TermInfo} {op : BinaryOperator} {lhs rhs : Term} {type : DataType}
    (hlhs : Plain .expression lhs) (hclear : clear (.node info (.binary op lhs rhs type)) = true) :
    op.left ≤ (writtenOperand (lhs, written lhs)).level := by
  rw [level_writtenOperand hlhs (clear_child hclear List.mem_cons_self)]
  by_cases hpow : op = .pow
  · subst hpow
    rw [clear_node] at hclear
    have hbase : isSigned lhs = false := by
      simpa using (Bool.and_eq_true_iff.mp hclear).1
    rw [hbase]
    exact Nat.le_refl 10
  · have hbelow : op.left ≤ 8 := by
      cases op <;> first | decide | exact (hpow rfl).elim
    split <;> omega

/-- An operation on tight operands is tight, since what binds less is in parentheses. -/
theorem tight_binary {info : TermInfo} {op : BinaryOperator} {lhs rhs : Term} {type : DataType}
    (hlhs : Plain .expression lhs) (hrhs : Plain .expression rhs)
    (hclear : clear (.node info (.binary op lhs rhs type)) = true)
    (hl : (written lhs).tight = true) (hr : (written rhs).tight = true) :
    (written (.node info (.binary op lhs rhs type))).tight = true := by
  have hleft := left_le_level hlhs hclear
  have hright : op.right ≤ (writtenOperand (rhs, written rhs)).level := by
    have hmem : rhs ∈ (Payload.binary op lhs rhs type).children :=
      List.mem_cons_of_mem lhs List.mem_cons_self
    have hle := op.right_le
    rw [level_writtenOperand hrhs (clear_child hclear hmem)]
    split <;> omega
  rw [written_node, Payload.map, nodeExpr, Expr.tight, tight_writtenOperand,
    tight_writtenOperand, hl, hr, decide_eq_true hleft, decide_eq_true hright]
  rfl

/-- A clear expression is tight. -/
theorem Plain.tight_written {phrase : Phrase} {t : Term} (h : Plain phrase t)
    (hclear : clear t = true) : (written t).tight = true := by
  induction h with
  | literal => exact tight_literalExpr _ _
  | «variable» => rfl
  | collection _ ih =>
      rw [written_node, Payload.map, nodeExpr, map_snd]
      apply tight_collectionExpr
      rw [List.forall_mem_map]
      exact fun t ht => ih t ht (clear_child hclear ht)
  | @mapping _ entries _ _ _ ihk ihv =>
      rw [written_node, Payload.map, nodeExpr, List.map_map]
      apply tight_ofList
      rw [List.forall_mem_map]
      intro p hp
      apply Bool.and_eq_true_iff.mpr
      constructor
      · exact ihk p hp (clear_child hclear (List.mem_flatMap.mpr ⟨p, hp, by simp⟩))
      · exact ihv p hp (clear_child hclear (List.mem_flatMap.mpr ⟨p, hp, by simp⟩))
  | unary hoperand ih =>
      have hchild := clear_child hclear List.mem_cons_self
      exact tight_unary hoperand hchild (ih hchild)
  | binary hlhs hrhs ihl ihr =>
      have hl := ihl (clear_child hclear List.mem_cons_self)
      have hr := ihr (clear_child hclear (List.mem_cons_of_mem _ List.mem_cons_self))
      exact tight_binary hlhs hrhs hclear hl hr
  | @cast _ operand target _ ih =>
      have hoperand := clear_child hclear (List.mem_singleton_self operand)
      rw [written_node, Payload.map, nodeExpr]
      cases castName? target with
      | none => exact ih hoperand
      | some name => exact tight_ofList (List.forall_mem_singleton.mpr (ih hoperand))
  | call _ _ ih =>
      rw [written_node, Payload.map, nodeExpr, map_snd]
      exact tight_writtenList fun t ht => ih t ht (clear_child hclear ht)
  | comprehension _ _ _ ihe ihg =>
      rw [written_node, Payload.map, nodeExpr, map_snd, Expr.tight, Bool.and_eq_true]
      constructor
      · exact ihe (clear_child hclear List.mem_cons_self)
      · exact tight_writtenList fun t ht =>
          ihg t ht (clear_child hclear (List.mem_cons_of_mem _ ht))
  | clause _ _ _ _ ihi ihc =>
      rw [written_node, Payload.map, nodeExpr, map_snd, Expr.tight, Bool.and_eq_true]
      constructor
      · exact ihi (clear_child hclear (by simp [Payload.children]))
      · exact tight_writtenList fun t ht =>
          ihc t ht (clear_child hclear (by simp [Payload.children, ht]))

end TypedSyntax.Python
