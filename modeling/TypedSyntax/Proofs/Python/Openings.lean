import TypedSyntax.Proofs.Python.Coupling
import TypedSyntax.Proofs.Python.Lines

/-!
# Opening parentheses

How many opening parentheses a text has. Two nodes with the same payload differ in
them as the texts of their children do.
-/

namespace TypedSyntax.Python

/-- The number of opening parentheses in a text. -/
def openings (text : String) : Nat :=
  text.toList.count '('

theorem openings_append (s t : String) : openings (s ++ t) = openings s + openings t := by
  rw [openings, String.toList_append, List.count_append]
  rfl

theorem openings_intercalate {separator : String} (h : openings separator = 0)
    (items : List String) : openings (separator.intercalate items) = (items.map openings).sum := by
  induction items with
  | nil => rfl
  | cons item items ih =>
      cases items with
      | nil => rw [String.intercalate_singleton, List.map_singleton, List.sum_singleton]
      | cons next items =>
          rw [String.intercalate_cons_cons, openings_append, openings_append, h, ih, Nat.add_zero]
          rfl

theorem openings_joinLines (items : List String) :
    openings (joinLines items) = (items.map openings).sum :=
  openings_intercalate (by decide) items

/-! ## Indented lines -/

theorem count_dropReturn (line : List Char) :
    (Text.dropReturn line).count '(' = line.count '(' := by
  unfold Text.dropReturn
  split
  · next h =>
    obtain ⟨cs, rfl⟩ := List.getLast?_eq_some_iff.mp h
    rw [List.dropLast_concat, List.count_append]
    rfl
  · rfl

/-- The cut into lines drops no parenthesis. -/
theorem count_lines (cs : List Char) :
    ((Text.lines cs).map (List.count '(')).sum = cs.count '(' := by
  induction h : cs.length using Nat.strongRecOn generalizing cs with
  | ind n ih =>
      rcases Text.exists_piece '\n' cs with hnone | ⟨a, b, rfl, ha⟩
      · rw [Text.lines_of_notMem hnone]
        split
        · next hnil =>
          rw [hnil]
          rfl
        · exact List.sum_singleton
      · have hrest : b.length < n := by
          rw [← h, List.length_append, List.length_cons]
          omega
        rw [Text.lines_append ha, List.map_cons, List.sum_cons, count_dropReturn, ih _ hrest b rfl,
          List.count_append, List.count_cons_of_ne (by decide)]

/-- A body has as many opening parentheses as its text. -/
theorem openings_indentLines (options : PythonOptions) (text : String) :
    openings (indentLines options text) = openings text := by
  have hline : ∀ line, openings (indentLine options.indent line) = line.count '(' := by
    intro line
    unfold indentLine
    split
    · next h =>
      rw [List.isEmpty_iff.mp h]
      rfl
    · have hmargin : (List.replicate options.indent ' ').count '(' = 0 :=
        List.count_eq_zero.mpr fun h => absurd (List.eq_of_mem_replicate h) (by decide)
      rw [openings, String.toList_ofList, List.count_append, hmargin, Nat.zero_add]
  rw [indentLines_eq, openings_joinLines, List.map_map, openings, ← count_lines]
  congr 1
  exact List.map_congr_left fun line _ => hline line

/-! ## More parentheses -/

/-- The second text has some more opening parentheses. -/
def More (k : Nat) (s t : String) : Prop :=
  openings t = openings s + k

/-- Parentheses add up along a text, and indentation changes none. -/
theorem comparison_more : Comparison (· = ·) More where
  refl _ := rfl
  append := by
    intro j k s s' t t' hs ht
    calc
      openings (t ++ t') = (openings s + j) + (openings s' + k) := by
        rw [openings_append, hs, ht]
      _ = openings (s ++ s') + (j + k) := by
        rw [openings_append]
        omega
  indent := by
    intro k s t options h
    rw [More, openings_indentLines, openings_indentLines, h]
  note := coupled_self

/-- Imports above a module have no parentheses that depend on what stands below. -/
theorem more_moduleText {k : Nat} {s t : String} (imports : Imports) (h : More k s t) :
    More k (moduleText imports s) (moduleText imports t) := by
  have hmodule : ∀ s, openings (moduleText imports s) =
      (if imports.lines.isEmpty then 0 else openings (joinLines imports.lines)) + openings s := by
    intro s
    unfold moduleText
    dsimp only
    split
    · exact (Nat.zero_add _).symm
    · split
      · next hempty =>
        rw [String.isEmpty_iff.mp hempty]
        rfl
      · rw [openings_append, openings_append]
        rfl
  rw [More, hmodule, hmodule s, h, Nat.add_assoc]

/-- A text gains what the texts of the children gain, and what the operands do. -/
theorem more_nodeText {options : PythonOptions} {α : Type} {f f' : α → Part} {v w : α → Nat}
    {p : Payload α} (h : Parallel (· = ·) More f f' v w p) (info : TermInfo) :
    Coupled (· = ·) (More ((p.children.map v).sum + (p.operands.map w).sum))
      (nodeText options info (p.map f)) (nodeText options info (p.map f')) :=
  coupled_nodeText_of_moduleText comparison_more more_moduleText h rfl

end TypedSyntax.Python
