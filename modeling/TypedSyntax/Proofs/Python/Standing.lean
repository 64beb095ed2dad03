import TypedSyntax.Proofs.Python.Layout

/-!
# Texts inside texts

The rows of a text stand in another text if they are rows of it, one below the other.
Whatever holds a function, its text holds the first rows of the function, indented once
for each body around it. This asks nothing of names and comments.
-/

namespace TypedSyntax.Python

/-- The rows of a text: what stands between its line feeds. -/
def rows (s : String) : List (List Char) :=
  Text.pieces '\n' s.toList

/-- The rows of the first text stand in the second one, from its `n`-th row on. -/
def Stands (n : Nat) (s t : String) : Prop :=
  rows s <:+: (rows t).drop n

/-- The last row is not empty and does not end with a carriage return, so that a body
keeps it. -/
def Sealed (s : String) : Prop :=
  ∃ above last, rows s = above ++ [last] ∧ last ≠ [] ∧ Text.dropReturn last = last

variable {options : PythonOptions} {n : Nat} {s t u : String}

theorem rows_ne_nil (s : String) : rows s ≠ [] :=
  Text.pieces_ne_nil _ _

theorem rows_join (u t : String) : rows (u ++ "\n" ++ t) = rows u ++ rows t := by
  rw [rows, String.toList_append, String.toList_append, List.append_assoc]
  exact Text.pieces_join _ _

/-- The rows of joined texts are those of each text in turn. -/
theorem rows_joinLines {ts : List String} (h : ts ≠ []) :
    rows (joinLines ts) = ts.flatMap rows := by
  induction ts with
  | nil => exact absurd rfl h
  | cons t ts ih =>
      rw [List.flatMap_cons]
      cases ts with
      | nil => rw [joinLines_singleton, List.flatMap_nil, List.append_nil]
      | cons next ts => rw [joinLines_cons t (by simp), rows_join, ih (by simp)]

theorem rows_of_notMem (h : '\n' ∉ s.toList) : rows s = [s.toList] :=
  Text.pieces_of_notMem h

/-- A text that goes on in front of a first row leaves the other rows. -/
theorem tail_rows_append (h : '\n' ∉ u.toList) (t : String) :
    (rows (u ++ t)).tail = (rows t).tail := by
  unfold rows
  rw [String.toList_append]
  rcases Text.exists_piece '\n' t.toList with ht | ⟨a, b, ht, ha⟩
  · rw [Text.pieces_of_notMem ht, Text.pieces_of_notMem (by simp [h, ht])]
    rfl
  · rw [ht, ← List.append_assoc, Text.pieces_append ha, Text.pieces_append (by simp [h, ha])]
    rfl

theorem sealed_colon (u : String) : Sealed (u ++ ":") := by
  have hcolon : ':' ≠ '\n' := by decide
  obtain ⟨above, last, hrows⟩ := Text.exists_pieces_concat hcolon u.toList
  refine ⟨above, last ++ [':'], ?_, by simp, ?_⟩
  · rw [rows, String.toList_append]
    exact hrows
  · rw [Text.dropReturn, List.getLast?_concat, if_neg (by decide)]

/-! ## Rows above and below -/

/-- What stands in the middle of the rows still stands there between further rows. -/
theorem infix_drop {xs ys : List (List Char)} (h : xs <:+: ys.drop n)
    (above below : List (List Char)) : xs <:+: (above ++ ys ++ below).drop n := by
  have hlater : ys.drop n <:+ ys.drop (n - above.length) :=
    List.drop_suffix_drop_left ys (Nat.sub_le n above.length)
  rw [List.drop_append, List.drop_append]
  exact ((h.trans hlater.isInfix).trans (List.suffix_append _ _).isInfix).trans
    (List.prefix_append _ _).isInfix

theorem Stands.zero (h : Stands n s t) : Stands 0 s t :=
  List.IsInfix.trans h (List.drop_suffix n (rows t)).isInfix

theorem stands_refl (s : String) : Stands 0 s s :=
  List.infix_refl _

/-- Below a first row nothing stands in that row. -/
theorem Stands.headed (h : Stands 0 s t) (u : String) : Stands 1 s (u ++ "\n" ++ t) := by
  obtain ⟨row, rest, hrow⟩ := List.exists_cons_of_ne_nil (rows_ne_nil u)
  rw [Stands, rows_join, hrow, List.cons_append, List.drop_one, List.tail_cons]
  exact List.IsInfix.trans h (List.suffix_append rest (rows t)).isInfix

/-- A text stands as deep below further rows. -/
theorem Stands.above (h : Stands n s t) (u : String) : Stands n s (u ++ "\n" ++ t) := by
  rw [Stands, rows_join]
  simpa using infix_drop h (rows u) []

theorem Stands.below (h : Stands n s t) (u : String) : Stands n s (t ++ "\n" ++ u) := by
  rw [Stands, rows_join]
  exact infix_drop h [] (rows u)

/-- What follows begins with a new row. -/
theorem Stands.before (h : Stands n s t) {last : String}
    (hlast : last = "" ∨ ∃ rest, last = "\n" ++ rest) : Stands n s (t ++ last) := by
  rcases hlast with rfl | ⟨rest, rfl⟩
  · rwa [String.append_empty]
  · rw [← String.append_assoc]
    exact h.below rest

/-- A text stands in joined texts where it stands in one of them. -/
theorem Stands.among {ts : List String} (h : Stands n s t) (ht : t ∈ ts) :
    Stands n s (joinLines ts) := by
  obtain ⟨before, after, rfl⟩ := List.append_of_mem ht
  rw [Stands, rows_joinLines (by simp), List.flatMap_append, List.flatMap_cons,
    ← List.append_assoc]
  exact infix_drop h _ _

/-- A text stands in a statement below its comment. -/
theorem Stands.comment (h : Stands n s t) (comment : String) :
    Stands n s (commentLines comment ++ t) := by
  unfold commentLines
  induction Text.lines comment.toList with
  | nil => exact h
  | cons line lines ih =>
      rw [List.map_cons, String.join_cons, String.append_assoc]
      exact ih.above _

/-- Words before the first row keep the rows below it. -/
theorem Stands.resumed (h : Stands 1 s t) (hu : '\n' ∉ u.toList) : Stands 1 s (u ++ t) := by
  rw [Stands, List.drop_one] at h ⊢
  rwa [tail_rows_append hu]

theorem Stands.ne_empty (h : Stands 0 s t) (hs : Sealed s) : t ≠ "" := by
  rintro rfl
  obtain ⟨above, last, hrows, hlast, -⟩ := hs
  have hmem : last ∈ rows "" := h.subset (by simp [hrows])
  exact hlast (List.mem_singleton.mp hmem)

/-! ## Bodies -/

/-- The rows of a body are its lines, indented. -/
theorem rows_indentLines (h : t ≠ "") : rows (indentLines options t) =
    (Text.lines t.toList).map fun line => (indentLine options.indent line).toList := by
  have hlines : Text.lines t.toList ≠ [] := by
    rw [Ne, Text.lines_eq_nil_iff, String.toList_eq_nil_iff]
    exact h
  rw [indentLines_eq, rows_joinLines (by simpa using hlines), List.flatMap_map,
    ← List.flatMap_pure_eq_map]
  refine List.flatMap_congr fun line hline => rows_of_notMem ?_
  obtain ⟨hfeed, -⟩ := Text.of_mem_lines hline
  unfold indentLine
  split
  · simp
  · rw [String.toList_ofList, List.mem_append]
    rintro (hmargin | hmem)
    · cases List.eq_of_mem_replicate hmargin
    · exact hfeed hmem

theorem Sealed.lines_eq (hs : Sealed s) :
    Text.lines s.toList = (rows s).map Text.dropReturn := by
  obtain ⟨above, last, hrows, hlast, hreturn⟩ := hs
  rw [Text.lines_of_pieces hrows, if_neg hlast, hrows, List.map_append, List.map_singleton, hreturn]

/-- A body indents the rows in it. -/
theorem Stands.indent (h : Stands 0 s t) (hs : Sealed s) :
    Stands 0 (indentLines options s) (indentLines options t) := by
  have hlines := hs.lines_eq
  have hne := (stands_refl s).ne_empty hs
  rw [Stands, List.drop_zero, rows_indentLines hne, rows_indentLines (h.ne_empty hs), hlines]
  obtain ⟨above, last, hrows, hlast, hreturn⟩ := hs
  exact (Text.infix_lines h hrows hlast hreturn).map _

/-- An indented body keeps its last row. -/
theorem Sealed.indent (hs : Sealed s) : Sealed (indentLines options s) := by
  have hlines := hs.lines_eq
  have hne := (stands_refl s).ne_empty hs
  obtain ⟨above, last, hrows, hlast, hreturn⟩ := hs
  have hindent : (indentLine options.indent last).toList =
      List.replicate options.indent ' ' ++ last := by
    rw [indentLine, if_neg (by simpa using hlast), String.toList_ofList]
  refine ⟨(above.map Text.dropReturn).map fun line => (indentLine options.indent line).toList,
    List.replicate options.indent ' ' ++ last, ?_, by simp [hlast], ?_⟩
  · rw [rows_indentLines hne, hlines, hrows, List.map_append, List.map_append, List.map_singleton,
      List.map_singleton, hreturn, hindent]
  · rw [Text.dropReturn_append hlast, hreturn]

theorem Sealed.iterate (hs : Sealed s) (depth : Nat) :
    Sealed ((indentLines options)^[depth] s) := by
  induction depth with
  | zero => exact hs
  | succ depth ih =>
      rw [Function.iterate_succ_apply']
      exact ih.indent

/-! ## Texts in progress -/

theorem ensures_true {A : Type} (m : Writing A) : Ensures m fun _ => True :=
  fun _ => trivial

/-- The result of one of the members is among the results. -/
theorem ensures_mapM_mem {A B : Type} {f : A → Writing B} {R : B → Prop} {xs : List A} {x : A}
    (hx : x ∈ xs) (h : Ensures (f x) R) : Ensures (xs.mapM f) fun ys => ∃ y ∈ ys, R y := by
  induction xs with
  | nil => cases hx
  | cons first xs ih =>
      rw [List.mapM_cons]
      rcases List.mem_cons.mp hx with rfl | hx
      · exact h.bind fun y hy => (ensures_true _).bind fun ys _ =>
          ensures_pure ⟨y, List.mem_cons_self, hy⟩
      · exact (ensures_true _).bind fun first _ => (ih hx).bind fun ys ⟨y, hy, hR⟩ =>
          ensures_pure ⟨y, List.mem_cons_of_mem first hy, hR⟩

section Parts

variable {part : Part} {parts : List Part}

/-- What stands in the text of a statement stands below its comment too. -/
theorem ensures_statement (h : Ensures part.2 (Stands n s)) :
    Ensures (statement part) (Stands n s) := by
  refine h.bind fun t ht => ?_
  split
  · exact ensures_pure ht
  · exact ensures_pure (ht.comment part.1.comment)

/-- What stands in one of the statements stands in all of them together. -/
theorem ensures_statements (hpart : part ∈ parts) (h : Ensures part.2 (Stands n s)) :
    Ensures (parts.mapM statement) fun ts => Stands n s (joinLines ts) :=
  (ensures_mapM_mem hpart (ensures_statement h)).mono fun _ ⟨_, ht, hstands⟩ => hstands.among ht

end Parts

/-- A text stands below a header from its second row on. -/
theorem Stands.under (h : Stands 0 s t) (u : String) : Stands 1 s (u ++ ":\n" ++ t) := by
  have hcolon : ":\n" = ":" ++ "\n" := rfl
  rw [hcolon, ← String.append_assoc]
  exact h.headed _

theorem Stands.under_call (h : Stands 0 s t) (u : String) : Stands 1 s (u ++ "):\n" ++ t) := by
  have hclose : "):\n" = ")" ++ ":\n" := rfl
  rw [hclose, ← String.append_assoc]
  exact h.under _

theorem stands_header (s t : String) : Stands 0 (s ++ ":") (s ++ ":\n" ++ t) := by
  have hcolon : s ++ ":\n" = s ++ ":" ++ "\n" := by
    rw [String.append_assoc]
    rfl
  rw [hcolon]
  exact (stands_refl _).below _

/-- Rows of an alternative stand below the consequent, indented or after `el`. -/
theorem Stands.otherwise (h : Stands 0 s t) (first : String) :
    Stands 1 s (first ++ ("\nelse:\n" ++ t)) := by
  have helse : "\nelse:\n" = "\nelse" ++ ":\n" := rfl
  rw [helse, ← String.append_assoc, ← String.append_assoc]
  exact h.under _

theorem Stands.resumed_below (h : Stands 1 s t) (first : String) :
    Stands 1 s (first ++ ("\nel" ++ t)) := by
  have hcut : first ++ ("\nel" ++ t) = first ++ "\n" ++ ("el" ++ t) := by
    have hel : "\nel" = "\n" ++ "el" := rfl
    simp only [hel, String.append_assoc]
  rw [hcut]
  exact (h.resumed (by decide)).above first

/-- Rows of a module stand below its imports. -/
theorem Stands.below_imports (h : Stands 0 s t) (hs : Sealed s) (imports : Imports) :
    Stands 0 s (moduleText imports t) := by
  unfold moduleText
  have hne := h.ne_empty hs
  split
  · exact h
  · rw [if_neg (by simpa using hne)]
    have hblank : "\n\n" = "\n" ++ "\n" := rfl
    rw [hblank, ← String.append_assoc]
    exact h.above _

theorem mem_members {attributes methods : List String} (h : t ∈ methods) :
    t ∈ members attributes methods := by
  unfold members
  split
  · cases h
  · rcases List.mem_cons.mp h with rfl | h
    · exact List.mem_cons_self
    · exact List.mem_cons_of_mem _ (List.mem_flatMap.mpr ⟨t, h, by simp⟩)
  · exact List.mem_append_right _ (List.mem_flatMap.mpr ⟨t, h, by simp⟩)

end TypedSyntax.Python
