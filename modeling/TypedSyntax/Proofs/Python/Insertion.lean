import TypedSyntax.Proofs.Python.Outline

/-!
# Insertions

Lines of source text, as a reader cuts them, and lists of lines that differ in
lines put in above one of them. Whatever is built around such lists keeps the
difference: other lines beside them, and any number of bodies.
-/

namespace TypedSyntax.Python

/-! ## Lines of source text -/

/-- The lines of source text. A line ends with a line feed, with a carriage
return, or with a carriage return and a line feed. -/
def sourceLines : List Char → List (List Char)
  | [] => [[]]
  | '\r' :: '\n' :: rest => [] :: sourceLines rest
  | c :: rest =>
    if c = '\r' then [] :: sourceLines rest else Text.addToPieces '\n' c (sourceLines rest)

example : sourceLines "a\r\nb\rc\n".toList = [['a'], ['b'], ['c'], []] := by decide

section SourceLines

variable {a b : List Char} {c : Char}

/-- Any character but a carriage return goes to the first line, and a line feed ends it. -/
theorem sourceLines_cons (h : c ≠ '\r') (rest : List Char) :
    sourceLines (c :: rest) = Text.addToPieces '\n' c (sourceLines rest) := by
  rw [sourceLines, if_neg h]
  exact fun _ hc _ => h hc

/-- A carriage return alone ends a line too. -/
theorem sourceLines_return (h : b.head? ≠ some '\n') :
    sourceLines ('\r' :: b) = [] :: sourceLines b := by
  rw [sourceLines, if_pos rfl]
  rintro rest - rfl
  exact h rfl

theorem sourceLines_cons_ordinary (hfeed : c ≠ '\n') (hreturn : c ≠ '\r') {piece : List Char}
    {others : List (List Char)} (h : sourceLines b = piece :: others) :
    sourceLines (c :: b) = (c :: piece) :: others := by
  rw [sourceLines_cons hreturn, h, Text.addToPieces, if_neg hfeed]

/-- An indentation goes to the first line. -/
theorem sourceLines_margin (h : ∀ c ∈ a, c ≠ '\n' ∧ c ≠ '\r') {piece : List Char}
    {others : List (List Char)} (hb : sourceLines b = piece :: others) :
    sourceLines (a ++ b) = (a ++ piece) :: others := by
  induction a with
  | nil => exact hb
  | cons c a ih =>
      obtain ⟨hc, ha⟩ := List.forall_mem_cons.mp h
      exact sourceLines_cons_ordinary hc.1 hc.2 (ih ha)

/-- A text without line breaks is one line. -/
theorem sourceLines_of_clean (h : ∀ c ∈ a, c ≠ '\n' ∧ c ≠ '\r') : sourceLines a = [a] := by
  simpa using sourceLines_margin (b := []) h rfl

theorem exists_sourceLines_return (b : List Char) :
    ∃ others, sourceLines ('\r' :: b) = [] :: others := by
  by_cases h : b.head? = some '\n'
  · obtain ⟨rest, rfl⟩ := List.head?_eq_some_iff.mp h
    exact ⟨sourceLines rest, rfl⟩
  · exact ⟨sourceLines b, sourceLines_return h⟩

theorem sourceLines_ne_nil (a : List Char) : sourceLines a ≠ [] := by
  rcases a with _ | ⟨c, a⟩
  · exact List.cons_ne_nil _ _
  · by_cases hc : c = '\r'
    · obtain ⟨others, hothers⟩ := exists_sourceLines_return a
      rw [hc, hothers]
      exact List.cons_ne_nil _ _
    · rw [sourceLines_cons hc]
      exact Text.addToPieces_ne_nil _ _ _

theorem dropReturn_cons_of_ne (h : c ≠ '\r') (a : List Char) :
    Text.dropReturn (c :: a) = c :: Text.dropReturn a := by
  cases a with
  | nil => exact if_neg fun hlast => h (Option.some.inj hlast)
  | cons next a => exact Text.dropReturn_append (List.cons_ne_nil next a) [c]

theorem head?_dropReturn (h : a.head? ≠ some '\n') :
    (Text.dropReturn a).head? ≠ some '\n' := by
  intro hhead
  obtain ⟨rest, hrest⟩ := List.head?_eq_some_iff.mp hhead
  obtain ⟨last, hlast⟩ := Text.dropReturn_isPrefix a
  rw [hrest, List.cons_append] at hlast
  exact h (congrArg List.head? hlast.symm)

theorem addToPieces_append (separator c : Char) {first : List (List Char)} (h : first ≠ [])
    (second : List (List Char)) :
    Text.addToPieces separator c (first ++ second) =
      Text.addToPieces separator c first ++ second := by
  obtain ⟨piece, others, rfl⟩ := List.exists_cons_of_ne_nil h
  unfold Text.addToPieces
  split <;> rfl

/-- Text is cut at a line feed, which takes a carriage return with it. -/
theorem sourceLines_append (a b : List Char) :
    sourceLines (a ++ '\n' :: b) = sourceLines (Text.dropReturn a) ++ sourceLines b := by
  induction a using sourceLines.induct with
  | case1 => exact sourceLines_cons (by decide) b
  | case2 rest ih =>
      have hdrop : Text.dropReturn ('\r' :: '\n' :: rest) =
          '\r' :: '\n' :: Text.dropReturn rest := by
        rw [← dropReturn_cons_of_ne (by decide) rest]
        exact Text.dropReturn_append (List.cons_ne_nil _ _) ['\r']
      rw [hdrop]
      exact congrArg (List.cons []) ih
  | case3 rest hnot ih =>
      -- A carriage return alone. At the end of the text it goes with the line feed.
      have hhead : rest.head? ≠ some '\n' := by
        intro hhead
        obtain ⟨tail, rfl⟩ := List.head?_eq_some_iff.mp hhead
        exact hnot tail rfl rfl
      cases rest with
      | nil => rfl
      | cons next rest =>
          have hdrop : Text.dropReturn ('\r' :: next :: rest) =
              '\r' :: Text.dropReturn (next :: rest) :=
            Text.dropReturn_append (List.cons_ne_nil _ _) ['\r']
          have hmore : (next :: rest ++ '\n' :: b).head? ≠ some '\n' := hhead
          rw [hdrop, List.cons_append, sourceLines_return hmore,
            sourceLines_return (head?_dropReturn hhead), ih, List.cons_append]
  | case4 c rest hnot hc ih =>
      rw [dropReturn_cons_of_ne hc, List.cons_append, sourceLines_cons hc, sourceLines_cons hc, ih,
        addToPieces_append _ _ (sourceLines_ne_nil _)]

/-- The first line of some text is that of what stands above its first line feed. -/
theorem exists_sourceLines (ha : '\n' ∉ a) (hb : ∀ c ∈ b.head?, c = '\n') :
    ∃ others, sourceLines (a ++ b) = a.takeWhile (· ≠ '\r') :: others := by
  induction a with
  | nil =>
      cases b with
      | nil => exact ⟨[], rfl⟩
      | cons c b =>
          obtain rfl := hb c rfl
          exact ⟨_, sourceLines_cons (by decide) b⟩
  | cons c a ih =>
      obtain ⟨hc, ha⟩ := not_or.mp (mt List.mem_cons.mpr ha)
      by_cases hreturn : c = '\r'
      · rw [hreturn]
        exact exists_sourceLines_return (a ++ b)
      · obtain ⟨others, hothers⟩ := ih ha
        refine ⟨others, ?_⟩
        rw [List.cons_append, sourceLines_cons_ordinary (Ne.symm hc) hreturn hothers,
          List.takeWhile_cons_of_pos (by simpa using hreturn)]

end SourceLines

/-! ## Lines put in -/

/-- A line at a depth that reads as the given text. -/
structure IsRemark (depth : Nat) (mark : List Char) (line : Line) : Prop where
  depth_eq : line.depth = depth
  drop_eq : Text.dropReturn line.text.toList = mark
  clean : ∀ c ∈ mark, c ≠ '\n' ∧ c ≠ '\r'
  ne_nil : mark ≠ []

/-- The lines begin with one at a depth that reads as the given text, as far as its
first carriage return. -/
structure Opens (depth : Nat) (first : List Char) (lines : List Line) : Prop where
  exists_cons : ∃ line rest, lines = line :: rest ∧ line.depth = depth ∧
    '\n' ∉ line.text.toList ∧ line.text.toList.takeWhile (· ≠ '\r') = first
  ne_nil : first ≠ []

/-- The second list of lines is the first with remarks below some lines. -/
def Inserted (marks : List (List Char)) (first : List Char) (above before after : List Line) :
    Prop :=
  ∃ depth put below, before = above ++ below ∧ after = above ++ (put ++ below) ∧
    List.Forall₂ (IsRemark depth) marks put ∧ Opens depth first below

section Inserted

variable {depth width : Nat} {mark first : List Char} {marks : List (List Char)} {line : Line}
  {lines above before after : List Line}

theorem takeWhile_dropReturn (text : List Char) :
    (Text.dropReturn text).takeWhile (· ≠ '\r') = text.takeWhile (· ≠ '\r') := by
  unfold Text.dropReturn
  split
  · next hlast =>
    obtain ⟨above, rfl⟩ := List.getLast?_eq_some_iff.mp hlast
    rw [List.dropLast_concat, List.takeWhile_append]
    split
    · next hall => simpa using (List.takeWhile_prefix _).eq_of_length hall
    · rfl
  · rfl

/-- A remark is one deeper in a body. -/
theorem IsRemark.inner (h : IsRemark depth mark line) : IsRemark (depth + 1) mark line.inner where
  depth_eq := congrArg (· + 1) h.depth_eq
  drop_eq := by
    rw [Line.inner, String.toList_ofList, h.drop_eq,
      Text.dropReturn_of_notMem fun hmem => (h.clean _ hmem).2 rfl]
  clean := h.clean
  ne_nil := h.ne_nil

/-- The first of the lines is not empty. -/
theorem Opens.exists_line (h : Opens depth first lines) :
    ∃ line rest, lines = line :: rest ∧ line.text ≠ "" := by
  obtain ⟨⟨line, rest, rfl, -, -, hfirst⟩, hne⟩ := h
  refine ⟨line, rest, rfl, fun hempty => ?_⟩
  rw [hempty] at hfirst
  exact hne hfirst.symm

theorem Opens.isBlank_eq_false (h : Opens depth first lines) (above : List Line) :
    isBlank (above ++ lines) = false := by
  obtain ⟨line, rest, rfl, htext⟩ := h.exists_line
  rcases above with _ | ⟨top, _ | ⟨next, above⟩⟩
  · cases rest with
    | nil => simpa [isBlank] using htext
    | cons => rfl
  · rfl
  · rfl

/-- In a body the lines begin one deeper with the same text. -/
theorem Opens.nest (h : Opens depth first lines) : Opens (depth + 1) first (nest lines) := by
  obtain ⟨⟨line, rest, rfl, hdepth, hfeed, hfirst⟩, hne⟩ := h
  refine ⟨?_, hne⟩
  cases rest with
  | nil => exact ⟨line.shift 1, [], rfl, congrArg (· + 1) hdepth, hfeed, hfirst⟩
  | cons next rest =>
      refine ⟨line.inner, _, rfl, congrArg (· + 1) hdepth, ?_, ?_⟩
      · rw [Line.inner, String.toList_ofList]
        exact fun hmem => hfeed ((Text.dropReturn_isPrefix _).subset hmem)
      · rw [Line.inner, String.toList_ofList, takeWhile_dropReturn, hfirst]

/-- Lines above both lists stay above the remarks. -/
theorem Inserted.append_left (h : Inserted marks first above before after) (lines : List Line) :
    Inserted marks first (lines ++ above) (lines ++ before) (lines ++ after) := by
  obtain ⟨depth, put, below, rfl, rfl, hput, hbelow⟩ := h
  exact ⟨depth, put, below, (List.append_assoc ..).symm, (List.append_assoc ..).symm, hput, hbelow⟩

theorem Opens.append (h : Opens depth first lines) (rest : List Line) :
    Opens depth first (lines ++ rest) := by
  obtain ⟨⟨line, others, rfl, hline⟩, hne⟩ := h
  exact ⟨⟨line, others ++ rest, rfl, hline⟩, hne⟩

/-- Lines below both lists stay below the remarks. -/
theorem Inserted.append_right (h : Inserted marks first above before after) (lines : List Line) :
    Inserted marks first above (before ++ lines) (after ++ lines) := by
  obtain ⟨depth, put, below, rfl, rfl, hput, hbelow⟩ := h
  exact ⟨depth, put, below ++ lines, by simp, by simp, hput, hbelow.append lines⟩

/-- A body keeps the difference. -/
theorem Inserted.nest (h : Inserted marks first above before after) :
    Inserted marks first (above.map (·.inner)) (nest before) (nest after) := by
  obtain ⟨depth, put, below, rfl, rfl, hput, hbelow⟩ := h
  obtain ⟨line, rest, rfl, htext⟩ := hbelow.exists_line
  refine ⟨depth + 1, put.map (·.inner), Python.nest (line :: rest), nest_append above htext rest,
    ?_, ?_, hbelow.nest⟩
  · rw [← List.append_assoc, nest_append _ htext, List.map_append, List.append_assoc]
  · rw [List.forall₂_map_right_iff]
    exact hput.imp fun _ _ h => h.inner

/-- Below a header the remarks are one deeper, below the nested lines. -/
theorem Inserted.under (h : Inserted marks first above before after) (head : String) :
    Inserted marks first (⟨0, head⟩ :: above.map (·.inner)) (under head before)
      (under head after) :=
  h.nest.append_left [⟨0, head⟩]

/-- Words before the first line keep the remarks below it. -/
theorem Inserted.resumed (h : Inserted marks first above before after) (hne : above ≠ []) :
    Inserted marks first (resumed above) (resumed before) (resumed after) := by
  obtain ⟨depth, put, below, rfl, rfl, hput, hbelow⟩ := h
  obtain ⟨line, rest, rfl⟩ := List.exists_cons_of_ne_nil hne
  exact ⟨depth, put, below, rfl, rfl, hput, hbelow⟩

section Lists

variable {A : Type} {f f' : A → List Line} {x : A} {xs : List A}

/-- One of several parts differs, and the others stay. -/
theorem Inserted.flatMap (h : Inserted marks first above (f x) (f' x)) (hx : x ∈ xs)
    (hnodup : xs.Nodup) (hothers : ∀ y ∈ xs, y ≠ x → f' y = f y) :
    ∃ lines, Inserted marks first (lines ++ above) (xs.flatMap f) (xs.flatMap f') := by
  obtain ⟨left, right, rfl⟩ := List.append_of_mem hx
  obtain ⟨-, hright, hdisjoint⟩ := List.nodup_append.mp hnodup
  have hsame : ∀ {ys}, ys ⊆ left ++ x :: right → x ∉ ys → ys.flatMap f' = ys.flatMap f := by
    intro ys hys hnot
    exact List.flatMap_congr fun y hy => hothers y (hys hy) fun he => hnot (he ▸ hy)
  have hleft := hsame (List.subset_append_left left _) fun hmem =>
    hdisjoint x hmem x List.mem_cons_self rfl
  have hright := hsame (fun y hy => by simp [hy]) (List.nodup_cons.mp hright).1
  refine ⟨left.flatMap f, ?_⟩
  rw [List.flatMap_append, List.flatMap_append, List.flatMap_cons, List.flatMap_cons, hleft, hright]
  exact (h.append_right _).append_left _

/-- The lines of the members of a class are those of each member, some of them
below a blank line. -/
theorem exists_margins {attributes methods : List A} (h : attributes ++ methods ≠ []) :
    ∃ members : List (List Line × A), members.map (·.2) = attributes ++ methods ∧
      ∀ f : A → List Line, (memberLines (attributes.map f) (methods.map f)).flatten =
        members.flatMap fun member => member.1 ++ f member.2 := by
  have hblank : ∀ (ms : List A) (f : A → List Line),
      ((ms.map f).flatMap fun method => [[⟨0, ""⟩], method]).flatten =
        (ms.map fun method => ([⟨0, ""⟩], method)).flatMap
          fun member : List Line × A => member.1 ++ f member.2 := by
    intro ms f
    induction ms with
    | nil => rfl
    | cons method ms ih =>
        rw [List.map_cons, List.flatMap_cons, List.flatten_append, ih, List.map_cons,
          List.flatMap_cons]
        simp
  rcases attributes with _ | ⟨field, fields⟩
  · rcases methods with _ | ⟨one, others⟩
    · exact absurd rfl h
    · refine ⟨([], one) :: others.map ([⟨0, ""⟩], ·), by simp [Function.comp_def], fun f => ?_⟩
      rw [List.map_nil, List.map_cons, memberLines, List.flatten_cons, hblank, List.flatMap_cons,
        List.nil_append]
  · refine ⟨(field :: fields).map ([], ·) ++ methods.map ([⟨0, ""⟩], ·),
      by simp [Function.comp_def], fun f => ?_⟩
    rw [List.map_cons, memberLines, List.flatten_append, hblank, List.flatMap_append]
    · simp [List.flatMap_def, Function.comp_def]
    · simp
    · simp

/-- One of the members of a class differs, and the others stay. -/
theorem Inserted.members (h : Inserted marks first above (f x) (f' x)) {attributes methods : List A}
    (hx : x ∈ attributes ++ methods) (hnodup : (attributes ++ methods).Nodup)
    (hothers : ∀ y ∈ attributes ++ methods, y ≠ x → f' y = f y) :
    ∃ lines, Inserted marks first (lines ++ above)
      (memberLines (attributes.map f) (methods.map f)).flatten
      (memberLines (attributes.map f') (methods.map f')).flatten := by
  -- The margins are the same for both, so that only the member itself differs.
  obtain ⟨members, hmembers, hlines⟩ := exists_margins (List.ne_nil_of_mem hx)
  rw [hlines f, hlines f']
  rw [← hmembers] at hx hnodup hothers
  obtain ⟨member, hmember, rfl⟩ := List.mem_map.mp hx
  obtain ⟨lines, hlines⟩ := (h.append_left member.1).flatMap hmember (.of_map _ hnodup)
    fun other hother hne => congrArg (other.1 ++ ·) (hothers other.2 (List.mem_map_of_mem hother)
      fun he => hne (List.inj_on_of_nodup_map hnodup hother hmember he))
  exact ⟨lines ++ member.1, (List.append_assoc ..) ▸ hlines⟩

/-- The imports of a module stand above the difference. -/
theorem Inserted.module (h : Inserted marks first above before after) (imports : Imports) :
    ∃ lines, Inserted marks first (lines ++ above) (moduleLines imports before)
      (moduleLines imports after) := by
  obtain ⟨depth, put, below, rfl, rfl, hput, hbelow⟩ := id h
  have hbefore := hbelow.isBlank_eq_false above
  have hafter := hbelow.isBlank_eq_false (above ++ put)
  rw [List.append_assoc] at hafter
  simp only [moduleLines, hbefore, hafter, Bool.false_eq_true, if_false]
  split
  · exact ⟨[], h⟩
  · refine ⟨imports.lines.map (⟨0, ·⟩) ++ [⟨0, ""⟩], ?_⟩
    rw [List.append_assoc]
    exact (h.append_left [⟨0, ""⟩]).append_left _

end Lists

/-! ### What a reader sees -/

/-- Lines above others are read before them. -/
theorem exists_above (width : Nat) (above : List Line) (tail : List Char) :
    ∃ top, ∀ lines ≠ [], sourceLines ((print width (above ++ lines)).toList ++ tail) =
      top ++ sourceLines ((print width lines).toList ++ tail) := by
  by_cases habove : above = []
  · exact ⟨[], fun lines _ => by rw [habove]; rfl⟩
  · refine ⟨sourceLines (Text.dropReturn (print width above).toList), fun lines hlines => ?_⟩
    rw [← sourceLines_append, print_append width habove hlines]
    simp

/-- Printed remarks are source lines of their own, above those of the statement. -/
theorem sourceLines_remarks {put : List Line} (hput : List.Forall₂ (IsRemark depth) marks put)
    (hlines : lines ≠ []) (tail : List Char) :
    sourceLines ((print width (put ++ lines)).toList ++ tail) =
      marks.map (List.replicate (width * depth) ' ' ++ ·) ++
        sourceLines ((print width lines).toList ++ tail) := by
  induction hput with
  | nil => rfl
  | @cons mark line marks put hline hput ih =>
      obtain ⟨rfl, rfl, hclean, hne⟩ := hline
      have htext : line.text.toList ≠ [] := by
        intro hempty
        rw [hempty] at hne
        exact hne rfl
      have hcut : (print width (line :: (put ++ lines))).toList ++ tail =
          (List.replicate (width * line.depth) ' ' ++ line.text.toList) ++
            '\n' :: ((print width (put ++ lines)).toList ++ tail) := by
        rw [print_cons _ _ (List.append_ne_nil_of_right_ne_nil put hlines),
          Line.indented_of_text (by simpa using htext)]
        simp
      rw [List.cons_append, hcut, sourceLines_append, ih, Text.dropReturn_append htext,
        sourceLines_of_clean]
      · rfl
      · refine List.forall_mem_append.mpr ⟨fun c hc => ?_, hclean⟩
        rw [List.eq_of_mem_replicate hc]
        decide

/-- The text of some lines is that of the first, and what follows its line feed. -/
theorem exists_lower (width : Nat) (line : Line) (rest : List Line) {tail : List Char}
    (htail : ∀ c ∈ tail.head?, c = '\n') :
    ∃ lower, (∀ c ∈ lower.head?, c = '\n') ∧
      (print width (line :: rest)).toList ++ tail = (line.indented width).toList ++ lower := by
  by_cases hrest : rest = []
  · exact ⟨tail, htail, by rw [hrest, print_singleton]⟩
  · refine ⟨'\n' :: ((print width rest).toList ++ tail), by simp, ?_⟩
    rw [print_cons _ _ hrest]
    simp

/-- The first line is a source line up to its first carriage return. -/
theorem Opens.exists_sourceLines (h : Opens depth first lines) (width : Nat) {tail : List Char}
    (htail : ∀ c ∈ tail.head?, c = '\n') :
    ∃ rest, sourceLines ((print width lines).toList ++ tail) =
      (List.replicate (width * depth) ' ' ++ first) :: rest := by
  obtain ⟨line, rest, rfl, htext⟩ := h.exists_line
  obtain ⟨⟨_, _, hlines, rfl, hfeed, hfirst⟩, -⟩ := h
  obtain ⟨rfl, rfl⟩ := List.cons.inj hlines
  obtain ⟨lower, hlower, hcut⟩ := exists_lower width line rest htail
  obtain ⟨others, hothers⟩ := Python.exists_sourceLines hfeed hlower
  rw [hfirst] at hothers
  rw [hcut, Line.indented_of_text htext, String.toList_ofList, List.append_assoc]
  refine ⟨others, sourceLines_margin (fun c hc => ?_) hothers⟩
  rw [List.eq_of_mem_replicate hc]
  decide

/-- Printed, the second list reads as the first, with the remarks above a line and as
deep as it. -/
theorem Inserted.exists_sourceLines (h : Inserted marks first above before after) (width : Nat)
    {tail : List Char} (htail : ∀ c ∈ tail.head?, c = '\n') :
    ∃ top margin rest, (∀ c ∈ margin, c = ' ') ∧
      sourceLines ((print width before).toList ++ tail) = top ++ (margin ++ first) :: rest ∧
      sourceLines ((print width after).toList ++ tail) =
        top ++ (marks.map (margin ++ ·) ++ (margin ++ first) :: rest) := by
  obtain ⟨depth, put, below, rfl, rfl, hput, hbelow⟩ := h
  obtain ⟨top, htop⟩ := exists_above width above tail
  obtain ⟨rest, hrest⟩ := hbelow.exists_sourceLines width htail
  have hne : below ≠ [] := by
    obtain ⟨line, lower, rfl, -⟩ := hbelow.exists_line
    exact List.cons_ne_nil _ _
  refine ⟨top, List.replicate (width * depth) ' ', rest, fun c hc => List.eq_of_mem_replicate hc,
    ?_, ?_⟩
  · rw [htop below hne, hrest]
  · rw [htop (put ++ below) (List.append_ne_nil_of_right_ne_nil put hne),
      sourceLines_remarks hput hne, hrest]

/-- Neither list is printed as an empty text. -/
theorem Inserted.print_ne_empty (h : Inserted marks first above before after) (width : Nat) :
    print width before ≠ "" ∧ print width after ≠ "" := by
  obtain ⟨depth, put, below, rfl, rfl, -, hbelow⟩ := h
  have hbefore := hbelow.isBlank_eq_false above
  have hafter := hbelow.isBlank_eq_false (above ++ put)
  rw [List.append_assoc] at hafter
  constructor
  · rw [Ne, ← isBlank_iff width, hbefore]
    decide
  · rw [Ne, ← isBlank_iff width, hafter]
    decide

end Inserted

end TypedSyntax.Python
