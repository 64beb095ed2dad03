import TypedSyntax.Proofs.Python.Expression

/-!
# Texts of expressions

The text of a plain expression does not depend on the imports that were noted
before. It spells the written expression, so that reading it gives the
operators and operands back exactly when the written expression is tight.
-/

namespace TypedSyntax.Python

/-- The value of a text in progress, whatever the imports. -/
def Yields {α : Type} (m : Writing α) (a : α) : Prop :=
  ∀ imports, (m.run imports).1 = a

variable {A B : Type} {m : Writing A} {a : A} {f : A → Writing B} {b : B}

theorem yields_pure (a : A) : Yields (pure a) a :=
  fun _ => rfl

/-- The second text in progress goes on from the value of the first. -/
theorem Yields.bind (h : Yields m a) (hf : Yields (f a) b) : Yields (m >>= f) b := by
  intro imports
  calc
    ((m >>= f).run imports).1 = ((f (m.run imports).1).run (m.run imports).2).1 := rfl
    _ = ((f a).run (m.run imports).2).1 := by rw [h imports]
    _ = b := hf _

theorem yields_needDatetime : Yields needDatetime () :=
  fun _ => rfl

/-- Texts in progress yield their values one by one. -/
theorem yields_mapM {f : A → Writing B} {xs : List A} {ys : List B}
    (h : List.Forall₂ (fun x y => Yields (f x) y) xs ys) : Yields (xs.mapM f) ys := by
  induction h with
  | nil => exact yields_pure []
  | cons hx _ ih =>
      rw [List.mapM_cons]
      exact hx.bind (ih.bind (yields_pure _))

theorem commentLines_empty : commentLines "" = "" :=
  rfl

/-- A statement is its text below the lines of its comment. -/
theorem yields_statement {part : Part} {s : String} (h : Yields part.2 s) :
    Yields (statement part) (commentLines part.1.comment ++ s) := by
  apply h.bind
  split
  · next hempty =>
    rw [String.isEmpty_iff.mp hempty, commentLines_empty, String.empty_append]
    exact yields_pure _
  · exact yields_pure _

/-! ## Literals -/

/-- A number with a sign spells an operation on the digits. -/
theorem spell_signed {negative : Bool} {digits : String} (h : Unsigned digits.toList) :
    Spell ((if negative then "-" else "") ++ digits) (signed negative digits) := by
  cases negative with
  | false =>
      rw [if_neg (by decide), String.empty_append]
      exact spells_number h
  | true => exact (spells_number h).unary .neg

/-- The decimal text of an integer spells its literal. -/
theorem spell_int (z : Int) : Spell (toString z) (signed (decide (z < 0)) (toString z.natAbs)) := by
  have htext : toString z = (if decide (z < 0) then "-" else "") ++ toString z.natAbs := by
    rw [Int.toString_eq_repr, Int.repr_eq_if]
    by_cases h : 0 ≤ z
    · have habs : z.toNat = z.natAbs := by omega
      simp [h, Int.not_lt.mpr h, habs, Nat.toString_eq_repr]
    · have habs : (-z).toNat = z.natAbs := by omega
      simp [h, Int.not_le.mp h, habs, Nat.toString_eq_repr]
  rw [htext]
  exact spell_signed (unsigned_repr _)

/-- A text without quotes or escapes between single quotes. -/
theorem spells_single {body : List Char}
    (h : ∀ rest, quoted '\'' (body ++ rest) = some (body, rest)) :
    Spells (String.ofList ('\'' :: body)) [.text (String.ofList ('\'' :: body))] := by
  intro rest us _ hlexes
  rw [String.toList_ofList]
  exact hlexes.text (by decide) (h rest)

theorem spells_first {s : String} {e : Expr} (h : Spell s e) :
    Spells s ((Expr.ofList [e]).write .first) := by
  have hwrite : (Expr.ofList [e]).write .first = e.write .whole := List.append_nil _
  rw [hwrite]
  exact h

/-- A name before items in parentheses spells a call. -/
theorem spell_callOf {callee s : String} {es : List Expr} (hcallee : isName callee = true)
    (h : Spells s ((Expr.ofList es).write .first)) :
    Spell (callee ++ "(" ++ s ++ ")") (callOf callee es) :=
  h.call hcallee

/-- The text of a double spells its literal. -/
theorem spell_floatLiteral (x : Double) : Spell (floatLiteral x) (doubleExpr x) := by
  have hcall : ∀ {s : String}, Spell s (.atom (.text s)) →
      Spell ("float" ++ "(" ++ s ++ ")") (callOf "float" [.atom (.text s)]) :=
    fun hs => spell_callOf (by decide) (spells_first hs)
  unfold floatLiteral doubleExpr
  split
  · exact hcall (s := "'nan'") (spells_single fun _ => rfl)
  split
  · split
    · exact hcall (s := "'-inf'") (spells_single fun _ => rfl)
    · exact hcall (s := "'inf'") (spells_single fun _ => rfl)
  · rw [text_numberLayout]
    exact spell_signed (unsigned_magnitude x)

/-- The text of a temporal literal. -/
theorem spells_temporal {name s : String} {ts : List Token} (hname : isName name = true)
    (h : Spells s ts) :
    Spells ("datetime." ++ name ++ ".fromisoformat(" ++ s ++ ")")
      (.word "datetime" :: .dot :: .word name :: .dot :: .word "fromisoformat" ::
        Bracket.round.around ts) := by
  intro rest us hrest hlexes
  have hcall : Lexes ("fromisoformat".toList ++ '(' :: (s.toList ++ ')' :: rest))
      (.word "fromisoformat" :: (Bracket.round.around ts ++ us)) := by
    have hiso : Spells ("fromisoformat" ++ "(" ++ s ++ ")") _ := h.call (by decide)
    simpa [String.toList_append] using hiso rest us hrest hlexes
  have hdot : ∀ {cs : List Char} {vs : List Token}, Lexes cs vs → Lexes ('.' :: cs) (.dot :: vs) :=
    fun hcs => hcs.single (by decide)
  have hclass := hdot ((hdot hcall).word hname (stop_cons (by decide)))
  have hmodule : Lexes ("datetime".toList ++ _) (.word "datetime" :: _) :=
    hclass.word (by decide) (stop_cons (by decide))
  simpa [String.toList_append] using hmodule

/-- Every literal has a text, which spells its expression. -/
theorem spell_literal (value : LiteralValue) (type : DataType) :
    ∃ s, Yields (literal value type) s ∧ Spell s (literalExpr value type) := by
  cases value with
  | bool b => cases b <;> exact ⟨_, yields_pure _, spells_word (by decide)⟩
  | int v => exact ⟨_, yields_pure _, spell_int v.toInt⟩
  | uint v => exact ⟨_, yields_pure _, spells_number (unsigned_repr v.toNat)⟩
  | float x => exact ⟨_, yields_pure _, spell_floatLiteral x⟩
  | complex real imag =>
      refine ⟨_, yields_pure _, ?_⟩
      have hnumbers := spells_commaList (List.Forall₂.cons (spell_floatLiteral real)
        (List.Forall₂.cons (spell_floatLiteral imag) List.Forall₂.nil))
      have hcall : Spell ("complex" ++ "(" ++ commaList _ ++ ")") (callOf "complex" _) :=
        spell_callOf (by decide) hnumbers
      have htext : ∀ r i, commaList [r, i] = r ++ ", " ++ i := by
        intro r i
        rw [commaList, String.intercalate_cons_cons, String.intercalate_singleton]
      rw [htext, ← String.append_assoc, ← String.append_assoc] at hcall
      exact hcall
  | text s => exact ⟨_, yields_pure _, spells_quote s⟩
  | char c => exact ⟨_, yields_pure _, spells_quote _⟩
  | temporal s =>
      have hname : isName (temporalClass type) = true := by
        unfold temporalClass
        split <;> decide
      refine ⟨_, yields_needDatetime.bind ?_, spells_temporal hname (spells_quote s)⟩
      cases type <;> exact yields_pure _

/-! ## Terms -/

variable {options : PythonOptions}

theorem text_node (info : TermInfo) (p : Payload Term) :
    text options (.node info p) = nodeText options info (p.map fun t => (t, text options t)) :=
  Term.fold_node _ info p

/-- What the text of a written phrase is like. -/
def Phrase.Spell : Phrase → String → Expr → Prop
  | .expression => Python.Spell
  | .clause => SpellClause

/-- A phrase has a text, which spells the written expression. -/
def Spelled (options : PythonOptions) (phrase : Phrase) (t : Term) : Prop :=
  ∃ s, Yields (text options t) s ∧ phrase.Spell s (written t)

theorem spelled_texts {phrase : Phrase} {ts : List Term}
    (h : ∀ t ∈ ts, Spelled options phrase t) :
    ∃ ss, Yields (texts (ts.map fun t => (t, text options t))) ss ∧
      List.Forall₂ phrase.Spell ss (ts.map written) := by
  have hall : ∃ ss, List.Forall₂ (fun part s => Yields part.2 s)
        (ts.map fun t => (t, text options t)) ss ∧
      List.Forall₂ phrase.Spell ss (ts.map written) := by
    induction ts with
    | nil => exact ⟨[], List.Forall₂.nil, List.Forall₂.nil⟩
    | cons t ts ih =>
        rw [List.forall_mem_cons] at h
        obtain ⟨⟨s, hs, hspell⟩, hrest⟩ := h
        obtain ⟨ss, hss, hspells⟩ := ih hrest
        exact ⟨s :: ss, List.Forall₂.cons hs hss, List.Forall₂.cons hspell hspells⟩
  obtain ⟨ss, hss, hspells⟩ := hall
  exact ⟨ss, yields_mapM hss, hspells⟩

/-- The text of an operand spells it with the parentheses that are written. -/
theorem spelled_operand {t : Term} (h : Spelled options .expression t) :
    ∃ s, Yields (operand (t, text options t)) s ∧ Spell s (writtenOperand (t, written t)) := by
  obtain ⟨s, hs, hspell⟩ := h
  unfold operand writtenOperand
  dsimp only
  cases t.kind with
  | binary | unary => exact ⟨_, hs.bind (yields_pure _), Spells.wrap hspell .round⟩
  | _ => exact ⟨_, hs.bind (yields_pure _), hspell⟩

/-- Items in brackets spell a display. -/
theorem spell_display {b : Bracket} {s : String} {items : Expr}
    (h : Spells s (items.write .first)) (hending : b.ending items = []) :
    Spell (b.wrap s) (.display b items) := by
  rw [Spell, Expr.write, hending, List.append_nil]
  exact h.wrap b

/-- The text of a collection spells it, a tuple of one with its comma. -/
theorem spell_collection (kind : CollectionKind) {ss : List String} {es : List Expr}
    (h : List.Forall₂ Spell ss es) : Spell (collection kind ss) (collectionExpr kind es) := by
  have hitems := spells_commaList h
  cases kind with
  | list => exact spell_display (b := .square) hitems rfl
  | set =>
      cases h with
      | nil =>
          have hset : Spells ("set" ++ "(" ++ "" ++ ")") _ := spells_nil.call (by decide)
          exact hset
      | cons => exact spell_display (b := .curly) hitems rfl
  | tuple =>
      cases h with
      | nil => exact spell_display (b := .round) hitems rfl
      | @cons s e _ _ hs hss =>
          cases hss with
          | nil =>
              have hround := (Spells.append hs trails_comma).wrap .round
              have htext : Bracket.round.wrap (s ++ ",") = "(" ++ s ++ ",)" := by
                simp [Bracket.wrap, String.append_assoc]
              have hwrite : (collectionExpr .tuple [e]).write .whole =
                  Bracket.round.around (e.write .whole ++ [.comma]) := by
                simp [collectionExpr, Expr.write, Bracket.ending]
              rw [htext] at hround
              rw [Spell, hwrite]
              exact hround
          | cons => exact spell_display (b := .round) hitems rfl

/-- An element and its clauses in brackets spell a comprehension. -/
theorem spell_comprehension (kind : ComprehensionKind) {s : String} {ss : List String} {e : Expr}
    {es : List Expr} (h : Spell s e) (hclauses : List.Forall₂ SpellClause ss es) :
    Spell ((comprehensionBracket kind).wrap (s ++ String.join (ss.map (" " ++ ·))))
      (.comprehension (comprehensionBracket kind) e (.ofList es)) :=
  (Spells.append h (trails_clauses hclauses)).wrap _

theorem yields_target {t : Term} {name : String} (h : boundName? t = some name) :
    Yields (target (t, text options t)) name := by
  obtain ⟨info, p⟩ := t
  cases p with
  | «variable» | declaration =>
      obtain rfl := Option.some.inj h
      exact yields_pure _
  | _ => cases h

/-- The text of a clause spells its target, its iterable and its filters. -/
theorem spell_clause (isAsync : Bool) {name s : String} {ss : List String} {e : Expr}
    {es : List Expr} (hname : isPlain name = true) (h : Spell s e)
    (hfilters : List.Forall₂ Spell ss es) :
    SpellClause ((if isAsync then "async for " else "for ") ++ name ++ " in " ++ s ++
        String.join (ss.map (" if " ++ ·)))
      (.clause isAsync name e (.ofList es)) := by
  refine ⟨isAsync, name, e, _, rfl, ?_⟩
  have hin : Spells ("in" ++ " " ++ _) _ :=
    Spells.keyword (by decide) (Spells.append h (trails_filters hfilters))
  have hfor : Spells ("for" ++ " " ++ _) _ :=
    Spells.keyword (by decide) ((spells_word (isName_of_isPlain hname)).append (Trails.space hin))
  cases isAsync with
  | false =>
      have htext : (if false then "async for " else "for ") ++ name ++ " in " ++ s ++
          String.join (ss.map (" if " ++ ·)) = "for" ++ " " ++ (name ++ (" " ++ ("in" ++ " " ++
            (s ++ String.join (ss.map (" if " ++ ·)))))) := by
        rw [← String.toList_inj]
        simp [String.toList_append]
      rw [htext]
      exact hfor
  | true =>
      have hasync : Spells ("async" ++ " " ++ _) _ := Spells.keyword (by decide) hfor
      have htext : (if true then "async for " else "for ") ++ name ++ " in " ++ s ++
          String.join (ss.map (" if " ++ ·)) = "async" ++ " " ++ ("for" ++ " " ++ (name ++ (" " ++
            ("in" ++ " " ++ (s ++ String.join (ss.map (" if " ++ ·))))))) := by
        rw [← String.toList_inj]
        simp [String.toList_append]
      rw [htext]
      exact hasync

/-- The text of an entry is that of its key and that of its value. -/
theorem spelled_entries {entries : List (Term × Term)}
    (hkeys : ∀ p ∈ entries, Spelled options .expression p.1)
    (hvalues : ∀ p ∈ entries, Spelled options .expression p.2) :
    ∃ ss, Yields ((entries.map fun p =>
        ((p.1, text options p.1), (p.2, text options p.2))).mapM writeEntry) ss ∧
      List.Forall₂ Spell ss (entries.map fun p => .pair (written p.1) (written p.2)) := by
  induction entries with
  | nil => exact ⟨[], yields_pure [], List.Forall₂.nil⟩
  | cons p entries ih =>
      rw [List.forall_mem_cons] at hkeys hvalues
      obtain ⟨⟨k, hk, hkey⟩, hkeys⟩ := hkeys
      obtain ⟨⟨v, hv, hvalue⟩, hvalues⟩ := hvalues
      obtain ⟨ss, hss, hspells⟩ := ih hkeys hvalues
      have hpair := Spells.append hkey (Trails.value hvalue)
      rw [← String.append_assoc] at hpair
      refine ⟨(k ++ ": " ++ v) :: ss, ?_, List.Forall₂.cons hpair hspells⟩
      rw [List.map_cons, List.mapM_cons]
      have hentry : Yields (writeEntry ((p.1, text options p.1), (p.2, text options p.2)))
          (k ++ ": " ++ v) := hk.bind (hv.bind (yields_pure _))
      exact hentry.bind (hss.bind (yields_pure _))

/-! ## The rules -/

section Rules

variable {info : TermInfo} {t : Term} {type : DataType}

theorem spelled_collection {kind : CollectionKind} {elements : List Term}
    (h : ∀ t ∈ elements, Spelled options .expression t) :
    Spelled options .expression (.node info (.collection kind elements type)) := by
  obtain ⟨ss, hss, hspells⟩ := spelled_texts h
  unfold Spelled
  rw [written_node, text_node, Payload.map, Payload.map, nodeText, nodeExpr, map_snd]
  exact ⟨_, hss.bind (yields_pure _), spell_collection _ hspells⟩

theorem spelled_mapping {entries : List (Term × Term)}
    (hkeys : ∀ p ∈ entries, Spelled options .expression p.1)
    (hvalues : ∀ p ∈ entries, Spelled options .expression p.2) :
    Spelled options .expression (.node info (.mapping entries type)) := by
  obtain ⟨ss, hss, hspells⟩ := spelled_entries hkeys hvalues
  unfold Spelled
  rw [written_node, text_node, Payload.map, Payload.map, nodeText, nodeExpr, List.map_map]
  exact ⟨_, hss.bind (yields_pure _),
    spell_display (b := .curly) (spells_commaList hspells) rfl⟩

theorem spelled_unary {op : UnaryOperator} (h : Spelled options .expression t) :
    Spelled options .expression (.node info (.unary op t type)) := by
  obtain ⟨s, hs, hspell⟩ := spelled_operand h
  unfold Spelled
  rw [written_node, text_node]
  exact ⟨_, hs.bind (yields_pure _), hspell.unary op⟩

theorem spelled_binary {op : BinaryOperator} {lhs rhs : Term}
    (hlhs : Spelled options .expression lhs) (hrhs : Spelled options .expression rhs) :
    Spelled options .expression (.node info (.binary op lhs rhs type)) := by
  obtain ⟨s, hs, hspell⟩ := spelled_operand hlhs
  obtain ⟨s', hs', hspell'⟩ := spelled_operand hrhs
  unfold Spelled
  rw [written_node, text_node]
  refine ⟨_, hs.bind (hs'.bind (yields_pure _)), ?_⟩
  have hbinary := Spells.append hspell (Trails.binary op hspell')
  simp only [← String.append_assoc] at hbinary
  exact hbinary

/-- A cast spells a call, or what its operand spells. -/
theorem spelled_cast (h : Spelled options .expression t) :
    Spelled options .expression (.node info (.cast t type)) := by
  obtain ⟨s, hs, hspell⟩ := h
  unfold Spelled
  rw [written_node, text_node, Payload.map, Payload.map, nodeText, nodeExpr, writeCast]
  cases hname : castName? type with
  | none => exact ⟨_, hs.bind (yields_pure _), hspell⟩
  | some name =>
      have hplain := isPlain_of_castName? hname
      exact ⟨_, hs.bind (yields_pure _),
        spell_callOf (isName_of_isPlain hplain) (spells_first hspell)⟩

theorem spelled_call {callee : String} {arguments : List Term} (hcallee : isPlain callee = true)
    (h : ∀ t ∈ arguments, Spelled options .expression t) :
    Spelled options .expression (.node info (.call callee arguments type)) := by
  obtain ⟨ss, hss, hspells⟩ := spelled_texts h
  unfold Spelled
  rw [written_node, text_node, Payload.map, Payload.map, nodeText, nodeExpr, map_snd]
  exact ⟨_, hss.bind (yields_pure _),
    spell_callOf (isName_of_isPlain hcallee) (spells_commaList hspells)⟩

theorem spelled_comprehension {kind : ComprehensionKind} {generators : List Term}
    (helement : Spelled options .expression t)
    (hgenerators : ∀ t ∈ generators, Spelled options .clause t) :
    Spelled options .expression (.node info (.comprehension kind t generators type)) := by
  obtain ⟨s, hs, hspell⟩ := helement
  obtain ⟨ss, hss, hspells⟩ := spelled_texts hgenerators
  have hcomprehension := spell_comprehension kind hspell hspells
  unfold Spelled
  rw [written_node, text_node, Payload.map, Payload.map, nodeText, nodeExpr, map_snd]
  cases kind with
  | list | set | generator =>
      exact ⟨_, hs.bind (hss.bind (yields_pure _)), hcomprehension⟩

theorem spelled_clause {target iterable : Term} {name : String} {conditions : List Term}
    {isAsync : Bool} (hbound : boundName? target = some name) (hname : isPlain name = true)
    (hiterable : Spelled options .expression iterable)
    (hconditions : ∀ t ∈ conditions, Spelled options .expression t) :
    Spelled options .clause (.node info (.clause target iterable conditions isAsync)) := by
  obtain ⟨s, hs, hspell⟩ := hiterable
  obtain ⟨ss, hss, hspells⟩ := spelled_texts hconditions
  unfold Spelled
  rw [written_node, text_node, Payload.map, Payload.map, nodeText, nodeExpr, map_snd, hbound]
  exact ⟨_, (yields_target hbound).bind (hs.bind (hss.bind (yields_pure _))),
    spell_clause isAsync hname hspell hspells⟩

end Rules

/-- The text of a plain phrase spells the written expression. -/
theorem Plain.spelled {phrase : Phrase} {t : Term} (h : Plain phrase t) :
    Spelled options phrase t := by
  induction h with
  | literal => exact spell_literal _ _
  | «variable» hname => exact ⟨_, yields_pure _, spells_word (isName_of_isPlain hname)⟩
  | collection _ ih => exact spelled_collection ih
  | mapping _ _ ihk ihv => exact spelled_mapping ihk ihv
  | unary _ ih => exact spelled_unary ih
  | binary _ _ ihl ihr => exact spelled_binary ihl ihr
  | cast _ ih => exact spelled_cast ih
  | call hcallee _ ih => exact spelled_call hcallee ih
  | comprehension _ _ _ ihe ihg => exact spelled_comprehension ihe ihg
  | clause hbound hname _ _ ihi ihc => exact spelled_clause hbound hname ihi ihc

/-! ## Reading texts -/

/-- The expression that a text stands for. -/
def read (s : String) : Option Expr :=
  (lex s).bind readTokens

/-- A plain expression has a text, which gives its operators and operands back
exactly when the written expression is tight. -/
theorem Plain.read_text {t : Term} (h : Plain .expression t) :
    ∃ s, Yields (text options t) s ∧ (read s = some (operators t) ↔ (written t).tight = true) := by
  obtain ⟨s, hs, hspell⟩ := h.spelled
  refine ⟨s, hs, ?_⟩
  rw [read, Spells.lex_eq hspell, Option.bind_some, ← h.bare_written]
  exact Shaped.readTokens_iff h.shaped

end TypedSyntax.Python
