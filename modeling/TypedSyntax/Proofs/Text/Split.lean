import TypedSyntax.Text.Split

/-!
# Pieces and lines

A text cut at a separator, at the first one or at all, and the lines of a text. What is cut
off is joined again to the same text.
-/

namespace TypedSyntax.Text

variable {a b : List Char}

/-- A text is a separator away from its first piece, or is one piece. -/
theorem exists_piece (separator : Char) (text : List Char) :
    separator ∉ text ∨ ∃ a b, text = a ++ separator :: b ∧ separator ∉ a := by
  induction text with
  | nil => exact .inl List.not_mem_nil
  | cons c text ih =>
      by_cases hc : c = separator
      · exact .inr ⟨[], text, by rw [hc]; rfl, List.not_mem_nil⟩
      · rcases ih with h | ⟨a, b, rfl, ha⟩
        · exact .inl (mt List.mem_cons.mp (not_or.mpr ⟨Ne.symm hc, h⟩))
        · exact .inr ⟨c :: a, b, rfl, mt List.mem_cons.mp (not_or.mpr ⟨Ne.symm hc, ha⟩)⟩

section Pieces

variable {separator : Char}

theorem addToPieces_append (c : Char) {pieces : List (List Char)} (h : pieces ≠ [])
    (others : List (List Char)) :
    addToPieces separator c (pieces ++ others) = addToPieces separator c pieces ++ others := by
  obtain ⟨piece, rest, rfl⟩ := List.exists_cons_of_ne_nil h
  unfold addToPieces
  split <;> rfl

/-- Texts joined by a separator have the pieces of both. -/
theorem pieces_join (a b : List Char) :
    pieces separator (a ++ separator :: b) = pieces separator a ++ pieces separator b := by
  induction a with
  | nil => simp [pieces, addToPieces]
  | cons c a ih =>
      calc
        pieces separator (c :: a ++ separator :: b)
          = addToPieces separator c (pieces separator (a ++ separator :: b)) := rfl
        _ = addToPieces separator c (pieces separator a) ++ pieces separator b := by
          rw [ih, addToPieces_append c (pieces_ne_nil separator a)]

/-- Without a separator there is one piece. -/
theorem pieces_of_notMem (h : separator ∉ a) : pieces separator a = [a] := by
  induction a with
  | nil => rfl
  | cons c a ih =>
      obtain ⟨hc, ha⟩ := not_or.mp (mt List.mem_cons.mpr h)
      have hrest := ih ha
      unfold pieces at hrest ⊢
      rw [List.foldr_cons, hrest, addToPieces, if_neg (Ne.symm hc)]

/-- The first piece ends at the first separator. -/
theorem pieces_append (h : separator ∉ a) (b : List Char) :
    pieces separator (a ++ separator :: b) = a :: pieces separator b := by
  rw [pieces_join, pieces_of_notMem h, List.singleton_append]

/-- A character that is no separator is added to the last piece. -/
theorem exists_pieces_concat {c : Char} (h : c ≠ separator) (a : List Char) :
    ∃ above last, pieces separator (a ++ [c]) = above ++ [last ++ [c]] := by
  induction a with
  | nil => exact ⟨[], [], by simp [pieces, addToPieces, h]⟩
  | cons d a ih =>
      obtain ⟨above, last, hcut⟩ := ih
      have hadd : pieces separator (d :: a ++ [c]) =
          addToPieces separator d (above ++ [last ++ [c]]) := by
        rw [← hcut]
        rfl
      rw [hadd]
      unfold addToPieces
      by_cases hd : d = separator
      · exact ⟨[] :: above, last, by simp [hd]⟩
      · rw [if_neg hd]
        cases above with
        | nil => exact ⟨[], d :: last, rfl⟩
        | cons piece above => exact ⟨(d :: piece) :: above, last, rfl⟩

theorem pieces_eq_singleton_iff {text : List Char} :
    pieces separator text = [a] ↔ text = a ∧ separator ∉ a := by
  constructor
  · intro h
    rcases exists_piece separator text with htext | ⟨b, c, rfl, hb⟩
    · rw [pieces_of_notMem htext] at h
      exact List.singleton_inj.mp h ▸ ⟨rfl, htext⟩
    · rw [pieces_append hb] at h
      exact absurd (List.cons.inj h).2 (pieces_ne_nil separator c)
  · rintro ⟨rfl, h⟩
    exact pieces_of_notMem h

theorem pieces_eq_cons_iff {text next : List Char} {others : List (List Char)} :
    pieces separator text = a :: next :: others ↔
      ∃ below, text = a ++ separator :: below ∧ separator ∉ a ∧
        pieces separator below = next :: others := by
  constructor
  · intro h
    rcases exists_piece separator text with htext | ⟨b, below, rfl, hb⟩
    · rw [pieces_of_notMem htext] at h
      cases (List.cons.inj h).2
    · rw [pieces_append hb] at h
      obtain ⟨rfl, hbelow⟩ := List.cons.inj h
      exact ⟨below, rfl, hb, hbelow⟩
  · rintro ⟨below, rfl, ha, hbelow⟩
    rw [pieces_append ha, hbelow]

theorem cutOnce?_append (h : separator ∉ a) (b : List Char) :
    cutOnce? separator (a ++ separator :: b) = some (a, b) := by
  induction a with
  | nil => exact if_pos rfl
  | cons c a ih =>
      obtain ⟨hc, ha⟩ := not_or.mp (mt List.mem_cons.mpr h)
      rw [List.cons_append, cutOnce?, if_neg (Ne.symm hc), ih ha]
      rfl

theorem cutOnce?_eq_none_iff {text : List Char} :
    cutOnce? separator text = none ↔ separator ∉ text := by
  induction text with
  | nil => simp [cutOnce?]
  | cons c text ih =>
      by_cases hc : c = separator
      · simp [cutOnce?, hc]
      · simp [cutOnce?, hc, ih, Ne.symm hc]

/-- A text is cut at its first separator. -/
theorem cutOnce?_eq_some_iff {text : List Char} :
    cutOnce? separator text = some (a, b) ↔ text = a ++ separator :: b ∧ separator ∉ a := by
  constructor
  · intro h
    rcases exists_piece separator text with htext | ⟨c, d, rfl, hc⟩
    · rw [cutOnce?_eq_none_iff.mpr htext] at h
      cases h
    · rw [cutOnce?_append hc] at h
      obtain ⟨rfl, rfl⟩ := Prod.mk.inj (Option.some.inj h)
      exact ⟨rfl, hc⟩
  · rintro ⟨rfl, ha⟩
    exact cutOnce?_append ha b

end Pieces

/-- Lines are the pieces between line feeds, except for an empty last one. -/
theorem lines_of_pieces {text last : List Char} {above : List (List Char)}
    (h : pieces '\n' text = above ++ [last]) :
    lines text = above.map dropReturn ++ if last = [] then [] else [last] := by
  simp only [lines, h, List.dropLast_concat, List.getLast?_concat]
  cases last <;> simp

/-- Pieces of a text are lines of it, but for carriage returns, if the last of them is
not empty and does not end with one. -/
theorem infix_lines {part text last : List Char} {above : List (List Char)}
    (h : pieces '\n' part <:+: pieces '\n' text) (hpart : pieces '\n' part = above ++ [last])
    (hlast : last ≠ []) (hreturn : dropReturn last = last) :
    (pieces '\n' part).map dropReturn <:+: lines text := by
  obtain ⟨before, after, hcut⟩ := h
  rcases List.eq_nil_or_concat after with rfl | ⟨between, final, rfl⟩
  · have hlines : lines text = (before ++ above).map dropReturn ++ [last] := by
      have hcut' : pieces '\n' text = (before ++ above) ++ [last] := by
        rw [← hcut, hpart, List.append_nil, List.append_assoc]
      rw [lines_of_pieces hcut', if_neg hlast]
    refine ⟨before.map dropReturn, [], ?_⟩
    rw [hlines, hpart, List.append_nil, List.map_append, List.map_append, List.map_singleton,
      hreturn, List.append_assoc]
  · have hcut' : pieces '\n' text = (before ++ pieces '\n' part ++ between) ++ [final] := by
      rw [← hcut]
      simp
    refine ⟨before.map dropReturn, between.map dropReturn ++ if final = [] then [] else [final], ?_⟩
    rw [lines_of_pieces hcut', List.map_append, List.map_append, List.append_assoc _ _ (ite _ _ _)]

/-- The first line ends at the first line feed. -/
theorem lines_append (h : '\n' ∉ a) (b : List Char) :
    lines (a ++ '\n' :: b) = dropReturn a :: lines b := by
  obtain ⟨piece, others, hpieces⟩ := List.exists_cons_of_ne_nil (pieces_ne_nil '\n' b)
  unfold lines
  rw [pieces_append h, hpieces]
  simp only [List.dropLast_cons_cons, List.map_cons, List.getLast?_cons_cons]
  split <;> rfl

theorem lines_of_notMem (h : '\n' ∉ a) : lines a = if a = [] then [] else [a] := by
  unfold lines
  rw [pieces_of_notMem h]
  cases a <;> rfl

theorem lines_eq_nil_iff {text : List Char} : lines text = [] ↔ text = [] := by
  rcases exists_piece '\n' text with h | ⟨a, b, rfl, ha⟩
  · rw [lines_of_notMem h]
    split <;> simp_all
  · rw [lines_append ha]
    simp

theorem dropReturn_append {line : List Char} (h : line ≠ []) (margin : List Char) :
    dropReturn (margin ++ line) = margin ++ dropReturn line := by
  have hlast : (margin ++ line).getLast? = line.getLast? := by
    rw [List.getLast?_append, List.getLast?_eq_some_getLast h, Option.some_or]
  unfold dropReturn
  rw [hlast, List.dropLast_append_of_ne_nil h]
  split <;> rfl

theorem dropReturn_isPrefix (line : List Char) : dropReturn line <+: line := by
  unfold dropReturn
  split
  · exact List.dropLast_prefix line
  · exact List.prefix_refl line

theorem dropReturn_of_notMem {line : List Char} (h : '\r' ∉ line) : dropReturn line = line :=
  if_neg fun hlast => h (List.mem_of_getLast? hlast)

/-- Lines are parts of the text without line feeds. -/
theorem of_mem_lines {text line : List Char} (h : line ∈ lines text) :
    '\n' ∉ line ∧ line ⊆ text := by
  induction hn : text.length using Nat.strongRecOn generalizing text with
  | ind n ih =>
    rcases exists_piece '\n' text with hone | ⟨a, b, rfl, ha⟩
    · rw [lines_of_notMem hone] at h
      split at h
      · cases h
      · obtain rfl := List.mem_singleton.mp h
        exact ⟨hone, List.Subset.refl _⟩
    · rw [lines_append ha] at h
      rcases List.mem_cons.mp h with rfl | h
      · have hsub := (dropReturn_isPrefix a).subset
        exact ⟨fun hmem => ha (hsub hmem), fun c hc => List.mem_append_left _ (hsub hc)⟩
      · obtain ⟨hfeed, hsub⟩ :=
          ih b.length (by rw [← hn, List.length_append, List.length_cons]; omega) h rfl
        exact ⟨hfeed, fun c hc => List.mem_append_right _ (List.mem_cons_of_mem _ (hsub hc))⟩

end TypedSyntax.Text
