import TypedSyntax.Proofs.Text.Split
import TypedSyntax.Python.Writer

/-!
# Lines of texts

A text as a list of lines with depths, before any width of the indentation is
chosen. A body cuts the text inside it into lines and indents them, which is to
nest the lines.
-/

namespace TypedSyntax

namespace Python

/-- A line of a text with its depth. -/
structure Line where
  depth : Nat
  text : String
deriving DecidableEq, Repr

namespace Line

/-- The line with an indentation of some width for each depth. An empty line
stays empty. -/
def indented (width : Nat) (line : Line) : String :=
  if line.text.isEmpty then ""
  else String.ofList (List.replicate (width * line.depth) ' ') ++ line.text

/-- The line at some greater depth. -/
def shift (n : Nat) (line : Line) : Line :=
  { line with depth := line.depth + n }

/-- The line in a body, where it loses a carriage return at its end. -/
def inner (line : Line) : Line :=
  ⟨line.depth + 1, String.ofList (Text.dropReturn line.text.toList)⟩

/-- The line holds no line feed and does not begin with a carriage return. -/
structure Whole (line : Line) : Prop where
  notMem : '\n' ∉ line.text.toList
  head_ne : line.text.toList.head? ≠ some '\r'

end Line

/-- The text of some lines. -/
def print (width : Nat) (lines : List Line) : String :=
  joinLines (lines.map (·.indented width))

variable {line : Line} {first second : List Line} {width : Nat}

theorem joinLines_singleton (s : String) : joinLines [s] = s :=
  String.intercalate_singleton

theorem joinLines_cons (s : String) {rest : List String} (h : rest ≠ []) :
    joinLines (s :: rest) = s ++ "\n" ++ joinLines rest := by
  obtain ⟨next, rest, rfl⟩ := List.exists_cons_of_ne_nil h
  exact String.intercalate_cons_cons

theorem print_singleton (width : Nat) (line : Line) : print width [line] = line.indented width :=
  joinLines_singleton _

theorem print_cons (width : Nat) (line : Line) (h : second ≠ []) :
    print width (line :: second) = line.indented width ++ "\n" ++ print width second :=
  joinLines_cons _ fun hnil => h (List.map_eq_nil_iff.mp hnil)

/-- Lists of lines are printed one below the other. -/
theorem print_append (width : Nat) (hfirst : first ≠ []) (hsecond : second ≠ []) :
    print width (first ++ second) = print width first ++ "\n" ++ print width second := by
  induction first with
  | nil => exact absurd rfl hfirst
  | cons line rest ih =>
      cases rest with
      | nil => rw [List.singleton_append, print_cons width line hsecond, print_singleton]
      | cons next rest =>
          rw [List.cons_append, print_cons width line (by simp), ih (by simp),
            print_cons width line (by simp)]
          simp only [String.append_assoc]

theorem Line.indented_of_text {line : Line} (h : line.text ≠ "") (width : Nat) :
    line.indented width =
      String.ofList (List.replicate (width * line.depth) ' ' ++ line.text.toList) := by
  rw [indented, if_neg (by simpa using h), String.ofList_append, String.ofList_toList]

@[simp] theorem Line.indented_zero (width : Nat) (s : String) : indented width ⟨0, s⟩ = s := by
  by_cases h : s = ""
  · rw [h]
    rfl
  · rw [indented_of_text h, Nat.mul_zero, List.replicate_zero, List.nil_append,
      String.ofList_toList]

/-- Only an empty line is printed as nothing. -/
theorem Line.indented_eq_empty_iff {line : Line} : line.indented width = "" ↔ line.text = "" := by
  unfold indented
  split <;> simp_all

theorem Line.Whole.notMem_indented (h : line.Whole) : '\n' ∉ (line.indented width).toList := by
  by_cases hempty : line.text = ""
  · simp [indented_eq_empty_iff.mpr hempty]
  · rw [Line.indented_of_text hempty, String.toList_ofList, List.mem_append]
    rintro (hspace | hmem)
    · cases List.eq_of_mem_replicate hspace
    · exact h.notMem hmem

/-- Only a single empty line is printed as nothing. -/
theorem print_eq_empty_iff {next : Line} {rest : List Line} :
    print width (next :: rest) = "" ↔ rest = [] ∧ next.text = "" := by
  cases rest with
  | nil => rw [print_singleton, Line.indented_eq_empty_iff]; simp
  | cons line rest =>
      rw [print_cons width next (by simp)]
      simp

/-- The lines of a body. A last line that is empty is lost, unless there is no
other. -/
def nest : List Line → List Line
  | [] => []
  | [last] => [last.shift 1]
  | line :: next :: rest =>
    line.inner :: if rest = [] ∧ next.text = "" then [] else nest (next :: rest)

theorem nest_ne_nil (h : first ≠ []) : nest first ≠ [] := by
  unfold nest
  split
  · exact absurd rfl h
  · simp
  · simp

/-- A body keeps all lines above one that is not empty. -/
theorem nest_append (above : List Line) (h : line.text ≠ "") (rest : List Line) :
    nest (above ++ line :: rest) = above.map (·.inner) ++ nest (line :: rest) := by
  induction above with
  | nil => rfl
  | cons top above ih =>
      obtain ⟨next, others, hnext⟩ :=
        List.exists_cons_of_ne_nil
          (List.append_ne_nil_of_right_ne_nil above (List.cons_ne_nil line rest))
      have hkeep : ¬ (others = [] ∧ next.text = "") := by
        rintro ⟨rfl, hempty⟩
        obtain ⟨rfl, htail⟩ | ⟨tail, -, htail⟩ := List.append_eq_cons_iff.mp hnext
        · exact h ((List.cons.inj htail).1 ▸ hempty)
        · exact List.append_ne_nil_of_right_ne_nil tail (List.cons_ne_nil _ _) htail.symm
      rw [List.cons_append, hnext, nest, if_neg hkeep, ← hnext, ih, List.map_cons, List.cons_append]

/-- What a body does to the characters of a line. -/
def indentLine (width : Nat) (line : List Char) : String :=
  if line.isEmpty then "" else String.ofList (List.replicate width ' ' ++ line)

/-- A body is indented line by line. -/
theorem indentLines_eq (options : PythonOptions) (text : String) :
    indentLines options text =
      joinLines ((Text.lines text.toList).map (indentLine options.indent)) :=
  rfl

/-- Indenting an indented line makes it one deeper. -/
theorem indentLine_indented (width : Nat) (line : Line) :
    indentLine width (line.indented width).toList = (line.shift 1).indented width := by
  by_cases hempty : line.text = ""
  · have hshift : (line.shift 1).text = "" := hempty
    rw [Line.indented_eq_empty_iff.mpr hempty, Line.indented_eq_empty_iff.mpr hshift]
    rfl
  · have hshift : (line.shift 1).text ≠ "" := hempty
    have hchars : line.text.toList ≠ [] := by simpa using hempty
    rw [Line.indented_of_text hempty, Line.indented_of_text hshift, indentLine,
      String.toList_ofList, if_neg (by simp [hchars]), ← List.append_assoc,
      List.replicate_append_replicate]
    rw [show width + width * line.depth = width * (line.shift 1).depth by
      rw [Line.shift, Nat.mul_succ, Nat.add_comm]]
    rfl

theorem Line.Whole.dropReturn_ne_nil (h : line.Whole) (hne : line.text ≠ "") :
    Text.dropReturn line.text.toList ≠ [] := by
  have hchars : line.text.toList ≠ [] := by simpa using hne
  intro hnil
  unfold Text.dropReturn at hnil
  split at hnil
  · next hlast =>
    obtain ⟨above, habove⟩ := List.getLast?_eq_some_iff.mp hlast
    rw [habove, List.dropLast_concat] at hnil
    rw [hnil, List.nil_append] at habove
    exact h.head_ne (congrArg List.head? habove)
  · exact hchars hnil

/-- A body takes a carriage return from the end of a line. -/
theorem indentLine_dropReturn (h : line.Whole) (width : Nat) :
    indentLine width (Text.dropReturn (line.indented width).toList) =
      line.inner.indented width := by
  -- Without its carriage return the line is a line still.
  have hdrop : Text.dropReturn (line.indented width).toList =
      (Line.indented width
        ⟨line.depth, String.ofList (Text.dropReturn line.text.toList)⟩).toList := by
    by_cases hempty : line.text = ""
    · rw [Line.indented_eq_empty_iff.mpr hempty, hempty]
      rfl
    · have hchars : line.text.toList ≠ [] := by simpa using hempty
      rw [Line.indented_of_text hempty, Line.indented_of_text (by
        simpa using h.dropReturn_ne_nil hempty), String.toList_ofList, String.toList_ofList,
        String.toList_ofList, Text.dropReturn_append hchars]
  rw [hdrop, indentLine_indented]
  rfl

/-- A body nests the lines of its text. -/
theorem indentLines_print (options : PythonOptions) {lines : List Line} (hne : lines ≠ [])
    (h : ∀ line ∈ lines, line.Whole) :
    indentLines options (print options.indent lines) = print options.indent (nest lines) := by
  induction lines with
  | nil => exact absurd rfl hne
  | cons line rest ih =>
      obtain ⟨hline, hrest⟩ := List.forall_mem_cons.mp h
      cases rest with
      | nil =>
          rw [nest, print_singleton, print_singleton, indentLines_eq,
            Text.lines_of_notMem hline.notMem_indented]
          split
          · next hempty =>
            have htext := Line.indented_eq_empty_iff.mp (String.toList_eq_nil_iff.mp hempty)
            have hshift : (line.shift 1).text = "" := htext
            exact (Line.indented_eq_empty_iff.mpr hshift).symm
          · rw [List.map_singleton, joinLines_singleton, indentLine_indented]
      | cons next rest =>
          have hcut : (print options.indent (line :: next :: rest)).toList =
              (line.indented options.indent).toList ++
                '\n' :: (print options.indent (next :: rest)).toList := by
            rw [print_cons _ _ (by simp)]
            simp
          rw [indentLines_eq, hcut, Text.lines_append hline.notMem_indented, List.map_cons,
            indentLine_dropReturn hline, nest]
          split
          · next hlast =>
            have hnil : Text.lines "".toList = [] := Text.lines_eq_nil_iff.mpr rfl
            rw [print_eq_empty_iff.mpr hlast, hnil, List.map_nil, joinLines_singleton,
              print_singleton]
          · next hmore =>
            have hlines : (Text.lines (print options.indent (next :: rest)).toList).map
                (indentLine options.indent) ≠ [] := by
              rw [Ne, List.map_eq_nil_iff, Text.lines_eq_nil_iff, String.toList_eq_nil_iff,
                print_eq_empty_iff]
              exact hmore
            rw [joinLines_cons _ hlines, ← indentLines_eq, ih (by simp) hrest,
              print_cons _ _ (nest_ne_nil (by simp))]

/-- Printing the lines of several texts is joining the texts. -/
theorem print_flatMap {A : Type} (width : Nat) {f : A → List Line} {xs : List A}
    (h : ∀ x ∈ xs, f x ≠ []) :
    print width (xs.flatMap f) = joinLines (xs.map fun x => print width (f x)) := by
  induction xs with
  | nil => rfl
  | cons x xs ih =>
      obtain ⟨hx, hxs⟩ := List.forall_mem_cons.mp h
      rw [List.flatMap_cons, List.map_cons]
      cases xs with
      | nil => rw [List.flatMap_nil, List.append_nil, List.map_nil, joinLines_singleton]
      | cons y ys =>
          have hrest : (y :: ys).flatMap f ≠ [] := by
            rw [List.flatMap_cons]
            exact List.append_ne_nil_of_left_ne_nil (hxs y List.mem_cons_self) _
          rw [print_append width hx hrest, ih hxs, joinLines_cons _ (by simp)]

/-! ## Comments -/

/-- The lines of a comment above a statement. -/
def remarks (comment : String) : List Line :=
  (Text.lines comment.toList).map fun line => ⟨0, "# " ++ String.ofList line⟩

/-- The lines of a comment are printed as its text above the statement. -/
theorem print_remarks (width : Nat) (comment : String) (h : second ≠ []) :
    print width (remarks comment ++ second) = commentLines comment ++ print width second := by
  unfold remarks commentLines
  induction Text.lines comment.toList with
  | nil => rfl
  | cons line rest ih =>
      rw [List.map_cons, List.map_cons, List.cons_append, String.join_cons,
        print_cons _ _ (by simp [h]), ih, Line.indented_zero]
      simp only [String.append_assoc]

/-- No line of a comment has a line feed in it. -/
theorem whole_remarks (comment : String) : ∀ line ∈ remarks comment, line.Whole := by
  intro line hline
  obtain ⟨chars, hchars, rfl⟩ := List.mem_map.mp hline
  obtain ⟨hfeed, -⟩ := Text.of_mem_lines hchars
  exact ⟨by simpa using hfeed, by simp⟩

theorem Line.Whole.inner (h : line.Whole) : line.inner.Whole where
  notMem := by
    rw [Line.inner, String.toList_ofList]
    exact fun hmem => h.notMem ((Text.dropReturn_isPrefix _).subset hmem)
  head_ne := by
    rw [Line.inner, String.toList_ofList]
    intro hhead
    obtain ⟨rest, hrest⟩ := List.head?_eq_some_iff.mp hhead
    obtain ⟨last, hlast⟩ := Text.dropReturn_isPrefix line.text.toList
    rw [hrest, List.cons_append] at hlast
    exact h.head_ne (congrArg List.head? hlast.symm)

theorem Line.Whole.shift (h : line.Whole) (n : Nat) : (line.shift n).Whole :=
  ⟨h.notMem, h.head_ne⟩

/-- Lines stay whole in a body. -/
theorem whole_nest (h : ∀ line ∈ first, line.Whole) : ∀ line ∈ nest first, line.Whole := by
  induction first with
  | nil => exact List.forall_mem_nil _
  | cons line rest ih =>
      obtain ⟨hline, hrest⟩ := List.forall_mem_cons.mp h
      cases rest with
      | nil => exact List.forall_mem_singleton.mpr (hline.shift 1)
      | cons next rest =>
          rw [nest, List.forall_mem_cons]
          refine ⟨hline.inner, ?_⟩
          split
          · exact List.forall_mem_nil _
          · exact ih hrest

/-! ## Neat lines -/

/-- A text without line breaks. -/
def Clean (s : String) : Prop :=
  ∀ c ∈ s.toList, c ≠ '\n' ∧ c ≠ '\r'

instance (s : String) : Decidable (Clean s) :=
  List.decidableBAll _ _

theorem Clean.append {s s' : String} (h : Clean s) (h' : Clean s') : Clean (s ++ s') := by
  intro c hc
  rw [String.toList_append, List.mem_append] at hc
  exact hc.elim (h c) (h' c)

theorem Clean.notMem_feed {s : String} (h : Clean s) : '\n' ∉ s.toList :=
  fun hmem => (h _ hmem).1 rfl

theorem Clean.notMem_return {s : String} (h : Clean s) : '\r' ∉ s.toList :=
  fun hmem => (h _ hmem).2 rfl

theorem Clean.whole {s : String} (h : Clean s) (depth : Nat) : Line.Whole ⟨depth, s⟩ :=
  ⟨h.notMem_feed, fun hhead => h.notMem_return (List.mem_of_head? hhead)⟩

/-- Lines without line breaks, the last of which is not empty. -/
structure Neat (lines : List Line) : Prop where
  clean : ∀ line ∈ lines, Clean line.text
  last : ∃ above last, lines = above ++ [last] ∧ last.text ≠ ""

theorem Clean.inner_eq (h : Clean line.text) : line.inner = line.shift 1 := by
  rw [Line.inner, Text.dropReturn_of_notMem h.notMem_return, String.ofList_toList]
  rfl

theorem Neat.ne_nil (h : Neat first) : first ≠ [] := by
  obtain ⟨above, last, rfl, -⟩ := h.last
  simp

/-- In a body neat lines are one deeper, and none is lost. -/
theorem Neat.nest_eq (h : Neat first) : nest first = first.map (·.shift 1) := by
  obtain ⟨hclean, above, last, rfl, hlast⟩ := h
  rw [nest_append above hlast, List.map_append]
  congr 1
  exact List.map_congr_left fun line hline =>
    Clean.inner_eq (hclean line (List.mem_append_left _ hline))

/-- Neat lines stay neat below lines without line breaks. -/
theorem Neat.append (h : ∀ line ∈ first, Clean line.text) (h' : Neat second) :
    Neat (first ++ second) := by
  obtain ⟨hclean, above, last, rfl, hlast⟩ := h'
  exact ⟨List.forall_mem_append.mpr ⟨h, hclean⟩, first ++ above, last,
    (List.append_assoc _ _ _).symm, hlast⟩

theorem Neat.map_shift (h : Neat first) (n : Nat) : Neat (first.map (·.shift n)) := by
  obtain ⟨hclean, above, last, rfl, hlast⟩ := h
  exact ⟨List.forall_mem_map.mpr hclean, above.map (·.shift n), last.shift n, by simp, hlast⟩

/-- A comment without carriage returns has no line break in a line. -/
theorem clean_remarks {comment : String} (h : '\r' ∉ comment.toList) :
    ∀ line ∈ remarks comment, Clean line.text := by
  intro line hline
  obtain ⟨chars, hchars, rfl⟩ := List.mem_map.mp hline
  obtain ⟨hfeed, hsub⟩ := Text.of_mem_lines hchars
  have hmark : Clean "# " := by decide
  apply hmark.append
  intro c hc
  rw [String.toList_ofList] at hc
  exact ⟨fun he => hfeed (he ▸ hc), fun he => h (he ▸ hsub hc)⟩

end Python

end TypedSyntax
