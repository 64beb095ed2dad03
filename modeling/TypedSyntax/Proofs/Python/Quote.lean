import TypedSyntax.Proofs.Python.Insertion

/-!
# String literals

A text is read back from its literal, which holds no control character and no bare quote, and
which stays as it is wherever the lines around it are indented.
-/

namespace TypedSyntax.Python

/-- Characters that no cutting into lines takes apart: some, without a line feed, and without
a carriage return at the end. -/
structure Unbroken (cs : List Char) : Prop where
  ne_nil : cs ≠ []
  notMem : '\n' ∉ cs
  getLast?_ne : cs.getLast? ≠ some '\r'

/-- A quoted text is not cut into lines. -/
theorem unbroken_quote (s : String) : Unbroken (quote s).toList where
  ne_nil := by simp [toList_quote]
  notMem := fun h => (ne_break_of_isControl (isControl_of_mem_quote h)).1 rfl
  getLast?_ne := by
    rw [toList_quote, ← List.cons_append, List.getLast?_concat]
    decide

variable {cs : List Char}

theorem Unbroken.append_left (h : Unbroken cs) {before : List Char} (hbefore : '\n' ∉ before) :
    Unbroken (before ++ cs) where
  ne_nil := List.append_ne_nil_of_right_ne_nil before h.ne_nil
  notMem := fun hmem => (List.mem_append.mp hmem).elim hbefore h.notMem
  getLast?_ne := by
    rw [List.getLast?_append_of_ne_nil _ h.ne_nil]
    exact h.getLast?_ne

/-- A carriage return can be lost only from what stands behind such characters. -/
theorem Unbroken.dropReturn_append (h : Unbroken cs) (behind : List Char) :
    Text.dropReturn (cs ++ behind) = cs ++ Text.dropReturn behind := by
  cases behind with
  | nil =>
      rw [List.append_nil, Text.dropReturn, if_neg h.getLast?_ne]
      exact (List.append_nil cs).symm
  | cons c behind => exact Text.dropReturn_append (List.cons_ne_nil c behind) cs

/-! ## Indentation -/

variable (options : PythonOptions)

theorem indentLine_of_ne_nil {line : List Char} (h : line ≠ []) (width : Nat) :
    indentLine width line = String.ofList (List.replicate width ' ' ++ line) :=
  if_neg (by simpa using h)

/-- A text of one line is indented as one line. -/
theorem indentLines_of_notMem {line : List Char} (hline : '\n' ∉ line) :
    indentLines options (String.ofList line) = indentLine options.indent line := by
  rw [indentLines_eq, String.toList_ofList, Text.lines_of_notMem hline]
  split
  · next hnil =>
    rw [hnil]
    rfl
  · exact joinLines_singleton _

/-- The first line of a text is indented for itself. -/
theorem indentLines_append {line : List Char} (hline : '\n' ∉ line) (below : List Char) :
    indentLines options (String.ofList (line ++ '\n' :: below)) =
      indentLine options.indent (Text.dropReturn line) ++
        if below = [] then "" else "\n" ++ indentLines options (String.ofList below) := by
  simp only [indentLines_eq, String.toList_ofList, Text.lines_append hline, List.map_cons]
  split
  · next hbelow =>
    rw [hbelow, String.append_empty]
    exact joinLines_singleton _
  · next hbelow =>
    rw [joinLines_cons, String.append_assoc]
    simpa [Text.lines_eq_nil_iff] using hbelow

/-- At the beginning of a text. -/
theorem exists_indentLines_append (behind : List Char) :
    ∃ behind', ∀ cs, Unbroken cs →
      indentLines options (String.ofList (cs ++ behind)) =
        String.ofList (List.replicate options.indent ' ' ++ cs ++ behind') := by
  rcases Text.exists_piece '\n' behind with hbehind | ⟨line, below, rfl, hline⟩
  · refine ⟨behind, fun cs hcs => ?_⟩
    have hfeed : '\n' ∉ cs ++ behind := fun hmem =>
      (List.mem_append.mp hmem).elim hcs.notMem hbehind
    rw [indentLines_of_notMem options hfeed,
      indentLine_of_ne_nil (List.append_ne_nil_of_left_ne_nil hcs.ne_nil behind),
      List.append_assoc]
  · refine ⟨Text.dropReturn line ++ (if below = [] then "" else
      "\n" ++ indentLines options (String.ofList below)).toList, fun cs hcs => ?_⟩
    have hfeed : '\n' ∉ cs ++ line := fun hmem =>
      (List.mem_append.mp hmem).elim hcs.notMem hline
    rw [← List.append_assoc, indentLines_append options hfeed, hcs.dropReturn_append,
      indentLine_of_ne_nil (List.append_ne_nil_of_left_ne_nil hcs.ne_nil _)]
    simp only [List.append_assoc, String.ofList_append, String.ofList_toList, String.append_assoc]

/-- An indentation moves such characters and leaves them as they are. What it does to the text
before and behind them does not depend on them. -/
theorem exists_indentLines (before behind : List Char) :
    ∃ before' behind', ∀ cs, Unbroken cs →
      indentLines options (String.ofList (before ++ cs ++ behind)) =
        String.ofList (before' ++ cs ++ behind') := by
  induction hn : before.length using Nat.strongRecOn generalizing before with
  | ind n ih =>
    rcases Text.exists_piece '\n' before with hbefore | ⟨line, before, rfl, hline⟩
    · obtain ⟨behind', heq⟩ := exists_indentLines_append options behind
      refine ⟨List.replicate options.indent ' ' ++ before, behind', fun cs hcs => ?_⟩
      rw [heq _ (hcs.append_left hbefore)]
      simp only [List.append_assoc]
    · obtain ⟨before', behind', heq⟩ := ih before.length
        (by rw [← hn, List.length_append, List.length_cons]; omega) before rfl
      refine ⟨(indentLine options.indent (Text.dropReturn line)).toList ++ '\n' :: before', behind',
        fun cs hcs => ?_⟩
      have hne : before ++ cs ++ behind ≠ [] := by simp [hcs.ne_nil]
      have hcut := indentLines_append options hline (before ++ cs ++ behind)
      rw [if_neg hne, heq cs hcs] at hcut
      simp only [List.append_assoc, List.cons_append] at hcut ⊢
      rw [hcut, ← String.toList_inj]
      simp

/-- The text of a body of some depth, around a literal. -/
theorem exists_iterate_indentLines (depth : Nat) (before behind : String) :
    ∃ before' behind', ∀ s,
      (indentLines options)^[depth] (before ++ quote s ++ behind) =
        before' ++ quote s ++ behind' := by
  induction depth generalizing before behind with
  | zero => exact ⟨before, behind, fun s => rfl⟩
  | succ depth ih =>
      obtain ⟨outer, inner, hstep⟩ := exists_indentLines options before.toList behind.toList
      obtain ⟨before', behind', heq⟩ := ih (String.ofList outer) (String.ofList inner)
      refine ⟨before', behind', fun s => ?_⟩
      have hs := hstep _ (unbroken_quote s)
      simp only [String.ofList_append, String.ofList_toList] at hs
      rw [Function.iterate_succ_apply, hs, heq s]

/-- Every text is read back from its literal, whose only quotes without a backslash are its
first and its last character. No character of a literal is a control character, so that it
stays on one line, and a body of any depth around it leaves it as it is: what comes before it
and behind it there does not depend on the text. -/
theorem quote_readable :
    (∀ s : String,
      readLiteral? (quote s) = some s ∧
      (quote s).toList.any isControl = false ∧
      bareQuotes 0 (quote s).toList = [0, (quote s).length - 1] ∧
      sourceLines (quote s).toList = [(quote s).toList]) ∧
    ∀ (options : PythonOptions) (depth : Nat) (before behind : String),
      ∃ before' behind', ∀ s,
        (indentLines options)^[depth] (before ++ quote s ++ behind) =
          before' ++ quote s ++ behind' := by
  refine ⟨fun s => ⟨readLiteral?_quote s, ?_, bareQuotes_quote s, ?_⟩,
    fun options => exists_iterate_indentLines options⟩
  · rw [List.any_eq_false]
    intro c hc
    rw [isControl_of_mem_quote hc]
    exact Bool.false_ne_true
  · exact sourceLines_of_clean fun c hc => ne_break_of_isControl (isControl_of_mem_quote hc)

end TypedSyntax.Python
