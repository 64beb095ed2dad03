import TypedSyntax.Proofs.Json.Grammar

/-!
# Reading JSON texts

Every text of the grammar is read as the value that it writes. The fuel of the
reader is twice the number of characters.
-/

namespace TypedSyntax.Json

variable {cs rest : List Char} {fuel : Nat}

theorem ends_of_isBlank {c : Char} (hc : isBlank c = true) (rest : List Char) :
    Ends (c :: rest) := by
  apply ends_cons
  simp only [isBlank, Bool.or_eq_true, beq_iff_eq] at hc
  rcases hc with ((rfl | rfl) | rfl) | rfl <;> decide

theorem Ends.append {b : List Char} (hb : Blank b) (h : Ends rest) : Ends (b ++ rest) := by
  cases b with
  | nil => exact h
  | cons c b => exact ends_of_isBlank (hb c List.mem_cons_self) _

/-- Blanks before a value are skipped. -/
theorem value?_append {b : List Char} (hb : Blank b) (fuel : Nat) (cs : List Char) :
    value? fuel (b ++ cs) = value? fuel cs := by
  cases fuel with
  | zero => rw [value?, value?]
  | succ fuel => rw [value?, value?, skipBlanks_append hb]

/-! ## Where a value begins -/

/-- The characters that may begin a value. -/
def begins (c : Char) : Bool :=
  !isBlank c && c != ']' && c != '}'

/-- After blanks the characters begin a value. -/
def Begun (cs : List Char) : Prop :=
  ∃ b c tail, cs = b ++ c :: tail ∧ Blank b ∧ begins c = true

theorem begun_cons {c : Char} (hc : begins c = true) (tail : List Char) : Begun (c :: tail) :=
  ⟨[], c, tail, rfl, List.forall_mem_nil _, hc⟩

theorem Begun.append (h : Begun cs) (rest : List Char) : Begun (cs ++ rest) := by
  obtain ⟨b, c, tail, rfl, hb, hc⟩ := h
  exact ⟨b, c, tail ++ rest, by simp, hb, hc⟩

theorem Begun.after {b : List Char} (hb : Blank b) (h : Begun cs) : Begun (b ++ cs) := by
  obtain ⟨b', c, tail, rfl, hb', hc⟩ := h
  exact ⟨b ++ b', c, tail, by simp, List.forall_mem_append.mpr ⟨hb, hb'⟩, hc⟩

/-- After blanks comes the first character of a value. -/
theorem Begun.skipBlanks_eq (h : Begun cs) :
    ∃ c tail, skipBlanks cs = c :: tail ∧ begins c = true := by
  obtain ⟨b, c, tail, rfl, hb, hc⟩ := h
  have hblank : isBlank c = false := by
    simp only [begins, Bool.and_eq_true, Bool.not_eq_true'] at hc
    exact hc.1.1
  exact ⟨c, tail, by rw [skipBlanks_append hb, skipBlanks_cons hblank], hc⟩

theorem begins_of_isDigit {c : Char} (hc : c.isDigit = true) : begins c = true := by
  simp only [begins, isBlank, Bool.and_eq_true, Bool.not_eq_true', Bool.or_eq_false_iff,
    beq_eq_false_iff_ne, bne_iff_ne]
  refine ⟨⟨⟨⟨⟨?_, ?_⟩, ?_⟩, ?_⟩, ?_⟩, ?_⟩ <;>
    · rintro rfl
      revert hc
      decide

/-- A number begins with a digit or a minus sign. -/
theorem Numeral.exists_cons {n : NumberText} (h : Numeral n cs) :
    ∃ c tail, cs = c :: tail ∧ (c = '-' ∨ c.isDigit = true) := by
  obtain @⟨negative, _, _, _, _, _, _, hwhole, -, -, -⟩ := h
  obtain ⟨c, tail, rfl, hc⟩ := hwhole.head_isDigit
  cases negative with
  | true => exact ⟨'-', _, rfl, Or.inl rfl⟩
  | false => exact ⟨c, _, rfl, Or.inr hc⟩

/-- Every part but the rest of an object begins a value. -/
def Part.Starts (cs : List Char) : Part → Prop
  | .value _ | .items _ => Begun cs
  | .entries _ => ∃ b tail, cs = b ++ '"' :: tail ∧ Blank b

/-- Whatever is spelled begins as the parser expects it. -/
theorem Spelled.starts {part : Part} (h : Spelled part cs) : part.Starts cs := by
  induction h with
  | padded hb _ _ ih => exact (Begun.append ih _).after hb
  | null | true | false | string | emptyList | list | emptyObject | object =>
      exact begun_cons (by decide) _
  | number hn =>
      obtain ⟨c, tail, rfl, rfl | hc⟩ := hn.exists_cons
      · exact begun_cons (by decide) _
      · exact begun_cons (begins_of_isDigit hc) _
  | lastItem _ ih | moreItems _ _ ih => exact Begun.append ih _
  | lastEntry hb | moreEntries hb => exact ⟨_, _, rfl, hb⟩

/-! ## Reading parts -/

/-- The part is read from the text, and the rest is left, for a value up to
blanks. -/
def Part.ReadFrom (fuel : Nat) (text rest : List Char) : Part → Prop
  | .value v => ∃ after, value? fuel text = some (v, after) ∧ skipBlanks after = skipBlanks rest
  | .items vs => items? fuel text = some (vs, rest)
  | .entries es => entries? fuel text = some (es, rest)

section Equations

attribute [local simp] value?

theorem value?_number {n : NumberText} (h : Numeral n cs) (hrest : Ends rest) :
    value? (fuel + 1) (cs ++ rest) = some (.number n, rest) := by
  have hread := h.number?_append hrest
  obtain ⟨c, tail, rfl, hc⟩ := h.exists_cons
  have hne : ∀ d ∈ ['n', 't', 'f', '"', '[', '{', ' ', '\t', '\n', '\r'], c ≠ d := by
    rintro d hd rfl
    rcases hc with rfl | hc
    · revert hd
      decide
    · simp only [List.mem_cons, List.not_mem_nil, or_false] at hd
      rcases hd with rfl | rfl | rfl | rfl | rfl | rfl | rfl | rfl | rfl | rfl <;>
        · revert hc
          decide
  simp only [List.forall_mem_cons] at hne
  obtain ⟨hn, ht, hf, hq, hl, ho, h1, h2, h3, h4, -⟩ := hne
  have hblank : isBlank c = false := by simp [isBlank, h1, h2, h3, h4]
  rw [List.cons_append] at hread ⊢
  unfold value?
  rw [skipBlanks_cons hblank]
  split <;> simp_all

/-- A list that is not empty is its items after the bracket. -/
theorem value?_list (hcs : Begun cs) {vs : List Value}
    (h : items? fuel cs = some (vs, rest)) :
    value? (fuel + 1) ('[' :: cs) = some (.list vs, rest) := by
  obtain ⟨c, tail, hskip, hc⟩ := hcs.skipBlanks_eq
  have hclose : c ≠ ']' := by
    rintro rfl
    revert hc
    decide
  rw [value?, skipBlanks_cons (by decide)]
  simp only [hskip]
  split
  · next heq => exact (hclose (List.cons.inj heq).1).elim
  · rw [h]
    rfl

/-- An object that is not empty is its entries after the brace. -/
theorem value?_object {b tail : List Char} (hb : Blank b) {es : List (List Piece × Value)}
    (h : entries? fuel (b ++ '"' :: tail) = some (es, rest)) :
    value? (fuel + 1) ('{' :: (b ++ '"' :: tail)) = some (.object es, rest) := by
  rw [value?, skipBlanks_cons (by decide)]
  simp only [skipBlanks_append hb, skipBlanks_cons (show isBlank '"' = false by decide), h]
  rfl

/-- The last item stands before a bracket. -/
theorem items?_last {v : Value} {after : List Char} (h : value? fuel cs = some (v, after))
    (hafter : skipBlanks after = ']' :: rest) :
    items? (fuel + 1) cs = some ([v], rest) := by
  simp [items?, h, hafter]

/-- Further items come after a comma. -/
theorem items?_more {v : Value} {vs : List Value} {after ds : List Char}
    (h : value? fuel cs = some (v, after)) (hafter : skipBlanks after = ',' :: ds)
    (hds : items? fuel ds = some (vs, rest)) :
    items? (fuel + 1) cs = some (v :: vs, rest) := by
  simp [items?, h, hafter, hds]

/-- The last entry stands before a brace. -/
theorem entries?_last {b b' ks after : List Char} {key : List Piece} {v : Value} (hb : Blank b)
    (hkey : Body key ks) (hb' : Blank b') (h : value? fuel cs = some (v, after))
    (hafter : skipBlanks after = '}' :: rest) :
    entries? (fuel + 1) (b ++ '"' :: (ks ++ '"' :: (b' ++ ':' :: cs))) =
      some ([(key, v)], rest) := by
  have hquote : isBlank '"' = false := by decide
  have hcolon : isBlank ':' = false := by decide
  simp [entries?, skipBlanks_append hb, skipBlanks_cons hquote, hkey.string?_append,
    skipBlanks_append hb', skipBlanks_cons hcolon, h, hafter]

/-- Further entries come after a comma. -/
theorem entries?_more {b b' ks after ds : List Char} {key : List Piece} {v : Value}
    {es : List (List Piece × Value)} (hb : Blank b) (hkey : Body key ks) (hb' : Blank b')
    (h : value? fuel cs = some (v, after)) (hafter : skipBlanks after = ',' :: ds)
    (hds : entries? fuel ds = some (es, rest)) :
    entries? (fuel + 1) (b ++ '"' :: (ks ++ '"' :: (b' ++ ':' :: cs))) =
      some ((key, v) :: es, rest) := by
  have hquote : isBlank '"' = false := by decide
  have hcolon : isBlank ':' = false := by decide
  simp [entries?, skipBlanks_append hb, skipBlanks_cons hquote, hkey.string?_append,
    skipBlanks_append hb', skipBlanks_cons hcolon, h, hafter, hds]

end Equations

/-- The part is read from its text, before characters that do not continue a number.
Two steps of fuel for each character are enough. -/
def Part.Reads (part : Part) (cs : List Char) : Prop :=
  ∀ fuel rest, Ends rest → 2 * cs.length ≤ fuel → part.ReadFrom fuel (cs ++ rest) rest

section Parts

variable {part : Part} {v : Value} {vs : List Value} {key : List Piece}
  {es : List (List Piece × Value)} {b b' ks ds : List Char}

/-- One step of fuel is used at the start of each part. -/
theorem reads_of_succ (hcs : cs ≠ [])
    (h : ∀ fuel rest, Ends rest → 2 * cs.length ≤ fuel + 1 →
      part.ReadFrom (fuel + 1) (cs ++ rest) rest) : part.Reads cs := by
  intro fuel rest hrest hfuel
  have hlength := List.length_pos_iff.mpr hcs
  obtain ⟨fuel, rfl⟩ : ∃ fuel', fuel = fuel' + 1 := Nat.exists_eq_add_of_le' (by omega)
  exact h fuel rest hrest hfuel

/-- A value is read with blanks around it. -/
theorem reads_padded (hb : Blank b) (hb' : Blank b') (h : Part.Reads (.value v) cs) :
    Part.Reads (.value v) (b ++ (cs ++ b')) := by
  intro fuel rest hrest hfuel
  simp only [List.length_append] at hfuel
  obtain ⟨after, hread, hafter⟩ := h fuel (b' ++ rest) (hrest.append hb') (by omega)
  refine ⟨after, ?_, hafter.trans (skipBlanks_append hb' rest)⟩
  rw [List.append_assoc, List.append_assoc, value?_append hb, hread]

theorem reads_number {n : NumberText} (h : Numeral n cs) :
    Part.Reads (.value (.number n)) cs := by
  obtain ⟨c, tail, rfl, -⟩ := h.exists_cons
  apply reads_of_succ (List.cons_ne_nil _ _)
  exact fun fuel rest hrest _ => ⟨rest, value?_number h hrest, rfl⟩

theorem reads_string {ps : List Piece} (h : Body ps cs) :
    Part.Reads (.value (.string ps)) ('"' :: (cs ++ ['"'])) := by
  apply reads_of_succ (List.cons_ne_nil _ _)
  intro fuel rest _ _
  refine ⟨rest, ?_, rfl⟩
  rw [List.cons_append, List.append_assoc, List.singleton_append, value?,
    skipBlanks_cons (by decide)]
  simp [h.string?_append]

theorem reads_emptyList (hb : Blank b) :
    Part.Reads (.value (.list [])) ('[' :: (b ++ [']'])) := by
  apply reads_of_succ (List.cons_ne_nil _ _)
  intro fuel rest _ _
  refine ⟨rest, ?_, rfl⟩
  rw [List.cons_append, List.append_assoc, List.singleton_append, value?,
    skipBlanks_cons (by decide)]
  simp [skipBlanks_append hb, skipBlanks_cons (show isBlank ']' = false by decide)]

theorem reads_emptyObject (hb : Blank b) :
    Part.Reads (.value (.object [])) ('\x7b' :: (b ++ ['\x7d'])) := by
  apply reads_of_succ (List.cons_ne_nil _ _)
  intro fuel rest _ _
  refine ⟨rest, ?_, rfl⟩
  rw [List.cons_append, List.append_assoc, List.singleton_append, value?,
    skipBlanks_cons (by decide)]
  simp [skipBlanks_append hb, skipBlanks_cons (show isBlank '\x7d' = false by decide)]

theorem reads_list (hcs : Begun cs) (h : Part.Reads (.items vs) cs) :
    Part.Reads (.value (.list vs)) ('[' :: cs) := by
  apply reads_of_succ (List.cons_ne_nil _ _)
  intro fuel rest hrest hfuel
  rw [List.length_cons] at hfuel
  exact ⟨rest, value?_list (hcs.append rest) (h fuel rest hrest (by omega)), rfl⟩

theorem reads_object (hcs : Part.Starts cs (.entries es)) (h : Part.Reads (.entries es) cs) :
    Part.Reads (.value (.object es)) ('\x7b' :: cs) := by
  apply reads_of_succ (List.cons_ne_nil _ _)
  intro fuel rest hrest hfuel
  rw [List.length_cons] at hfuel
  have hread := h fuel rest hrest (by omega)
  obtain ⟨b, tail, rfl, hb⟩ := hcs
  rw [List.append_assoc, List.cons_append] at hread
  refine ⟨rest, ?_, rfl⟩
  rw [List.cons_append, List.append_assoc, List.cons_append]
  exact value?_object hb hread

theorem reads_lastItem (h : Part.Reads (.value v) cs) : Part.Reads (.items [v]) (cs ++ [']']) := by
  apply reads_of_succ (by simp)
  intro fuel rest _ hfuel
  simp only [List.length_append, List.length_singleton] at hfuel
  obtain ⟨after, hread, hafter⟩ := h fuel (']' :: rest) (ends_cons (by decide) _) (by omega)
  rw [List.append_assoc]
  exact items?_last hread (hafter.trans (skipBlanks_cons (by decide) _))

theorem reads_moreItems (h : Part.Reads (.value v) cs) (hds : Part.Reads (.items vs) ds) :
    Part.Reads (.items (v :: vs)) (cs ++ ',' :: ds) := by
  apply reads_of_succ (by simp)
  intro fuel rest hrest hfuel
  simp only [List.length_append, List.length_cons] at hfuel
  obtain ⟨after, hread, hafter⟩ := h fuel (',' :: (ds ++ rest)) (ends_cons (by decide) _) (by omega)
  rw [List.append_assoc]
  exact items?_more hread (hafter.trans (skipBlanks_cons (by decide) _))
    (hds fuel rest hrest (by omega))

theorem reads_lastEntry (hb : Blank b) (hkey : Body key ks) (hb' : Blank b')
    (h : Part.Reads (.value v) cs) : Part.Reads (.entries [(key, v)])
      (b ++ '"' :: (ks ++ '"' :: (b' ++ ':' :: (cs ++ ['\x7d'])))) := by
  apply reads_of_succ (by simp)
  intro fuel rest _ hfuel
  simp only [List.length_append, List.length_cons] at hfuel
  obtain ⟨after, hread, hafter⟩ := h fuel ('\x7d' :: rest) (ends_cons (by decide) _) (by omega)
  have hlast := entries?_last hb hkey hb' hread (hafter.trans (skipBlanks_cons (by decide) _))
  simpa [Part.ReadFrom] using hlast

theorem reads_moreEntries (hb : Blank b) (hkey : Body key ks) (hb' : Blank b')
    (h : Part.Reads (.value v) cs) (hds : Part.Reads (.entries es) ds) :
    Part.Reads (.entries ((key, v) :: es))
      (b ++ '"' :: (ks ++ '"' :: (b' ++ ':' :: (cs ++ ',' :: ds)))) := by
  apply reads_of_succ (by simp)
  intro fuel rest hrest hfuel
  simp only [List.length_append, List.length_cons] at hfuel
  obtain ⟨after, hread, hafter⟩ := h fuel (',' :: (ds ++ rest)) (ends_cons (by decide) _) (by omega)
  have hmore := entries?_more hb hkey hb' hread (hafter.trans (skipBlanks_cons (by decide) _))
    (hds fuel rest hrest (by omega))
  simpa [Part.ReadFrom] using hmore

end Parts

/-- Every part is read from its text. -/
theorem Spelled.reads {part : Part} (h : Spelled part cs) : part.Reads cs := by
  induction h with
  | padded hb hb' _ ih => exact reads_padded hb hb' ih
  | null | true | false =>
      apply reads_of_succ (List.cons_ne_nil _ _)
      exact fun _ rest _ _ => ⟨rest, rfl, rfl⟩
  | number hn => exact reads_number hn
  | string hbody => exact reads_string hbody
  | emptyList hb => exact reads_emptyList hb
  | emptyObject hb => exact reads_emptyObject hb
  | list h ih => exact reads_list h.starts ih
  | object h ih => exact reads_object h.starts ih
  | lastItem _ ih => exact reads_lastItem ih
  | moreItems _ _ ih ih' => exact reads_moreItems ih ih'
  | lastEntry hb hkey hb' _ ih => exact reads_lastEntry hb hkey hb' ih
  | moreEntries hb hkey hb' _ _ ih ih' => exact reads_moreEntries hb hkey hb' ih ih'

/-- A whole text of a value is read as the value. -/
theorem Spelled.ofText?_eq {v : Value} {text : String} (h : Spelled (.value v) text.toList) :
    Value.ofText? text = some v := by
  obtain ⟨after, hread, hafter⟩ := h.reads (2 * text.toList.length + 2) [] nofun (by omega)
  have hnil : skipBlanks after = [] := hafter
  rw [List.append_nil] at hread
  simp [Value.ofText?, hread, hnil]

/-! ## Texts that are read as numbers -/

/-- A number that was read as a value was read as a number. -/
theorem number?_of_value? {n : NumberText} (h : value? fuel cs = some (.number n, rest)) :
    number? (skipBlanks cs) = some (n, rest) := by
  cases fuel with
  | zero => cases h
  | succ fuel =>
      unfold value? at h
      split at h
      case h_7 =>
        obtain ⟨⟨n', after⟩, hread, heq⟩ := Option.map_eq_some_iff.mp h
        obtain ⟨hn, rfl⟩ := Prod.mk.inj heq
        obtain rfl := Value.number.inj hn
        exact hread
      case h_5 | h_6 =>
        split at h
        · cases h
        · obtain ⟨_, -, heq⟩ := Option.map_eq_some_iff.mp h
          cases heq
      case h_4 =>
        obtain ⟨_, -, heq⟩ := Option.map_eq_some_iff.mp h
        cases heq
      all_goals cases h

/-- A whole text that is read as a number is written as one. -/
theorem spelled_of_ofText? {n : NumberText} {text : String}
    (h : Value.ofText? text = some (.number n)) :
    Spelled (.value (.number n)) text.toList := by
  have hdrop : ∀ cs : List Char, cs = cs.takeWhile isBlank ++ skipBlanks cs :=
    fun cs => List.takeWhile_append_dropWhile.symm
  have hblank : ∀ cs : List Char, Blank (cs.takeWhile isBlank) :=
    fun cs => List.all_eq_true.mp List.all_takeWhile
  simp only [Value.ofText?] at h
  split at h
  · next v after hread =>
    split at h
    · next hafter =>
      obtain rfl := Option.some.inj h
      obtain ⟨cs, hcs, hn⟩ := eq_append_of_number? (number?_of_value? hread)
      have hafter' : after = after.takeWhile isBlank ++ [] := by
        rw [← List.isEmpty_iff.mp hafter]
        exact hdrop after
      rw [hdrop text.toList, hcs, hafter', List.append_nil]
      exact Spelled.padded (hblank _) (hblank _) (Spelled.number hn)
    · cases h
  · cases h

end TypedSyntax.Json
