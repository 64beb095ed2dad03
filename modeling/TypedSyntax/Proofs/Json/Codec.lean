import TypedSyntax.Json.Writer
import TypedSyntax.Proofs.Datum
import TypedSyntax.Proofs.Json.Reading
import TypedSyntax.Proofs.Json.Writing

/-!
# Data through JSON

The indented and the compact text of a datum are read as the same datum, in
which texts stand for the numbers that JSON cannot write.
-/

namespace TypedSyntax.Datum

open Json

/-- The number that a datum is by itself. -/
def number? : Datum → Option Number
  | .int i => some (.int i)
  | .float x => some (.float x)
  | _ => none

/-- All numbers of a datum in order. -/
def numbers : Datum → List Number :=
  fold (fun d => d.number?.toList) List.flatten fun entries => (entries.map Prod.snd).flatten

/-- A number that JSON cannot write becomes a text: an integer beyond 64 bits
its digits, a double that is not finite its name. -/
def legibleLeaf : Datum → Datum
  | .int i =>
    if -0x8000000000000000 ≤ i ∧ i ≤ 0xFFFFFFFFFFFFFFFF then .int i else .text (toString i)
  | .float x =>
    if x.isNaN then .text "nan"
    else if x.isInfinite then .text (if x.isNegative then "-inf" else "inf")
    else .float x
  | d => d

/-- The datum with texts for the numbers that JSON cannot write. -/
def legible : Datum → Datum :=
  fold legibleLeaf .list .map

/-- The JSON number of a double is read back to the same bits. -/
def ReadsBack (x : Double) : Prop :=
  ofJson? (Datum.float x).compactJson = some (.float x)

theorem mem_numbers_list {items : List Datum} {d : Datum} (hd : d ∈ items) {n : Number}
    (hn : n ∈ d.numbers) : n ∈ (Datum.list items).numbers := by
  rw [numbers, fold_list]
  exact List.mem_flatten_of_mem (List.mem_map_of_mem hd) hn

theorem mem_numbers_map {entries : List (String × Datum)} {e : String × Datum} (he : e ∈ entries)
    {n : Number} (hn : n ∈ e.2.numbers) : n ∈ (Datum.map entries).numbers := by
  rw [numbers, fold_map, List.map_map]
  exact List.mem_flatten_of_mem
    (List.mem_map_of_mem (f := fun e : String × Datum => e.2.numbers) he) hn

theorem legible_list (items : List Datum) :
    (Datum.list items).legible = .list (items.map legible) :=
  fold_list _ _ _ items

theorem legible_map (entries : List (String × Datum)) :
    (Datum.map entries).legible = .map (entries.map fun e => (e.1, e.2.legible)) :=
  fold_map _ _ _ entries

/-- A datum whose numbers JSON can write stays as it is. -/
theorem legible_eq_self (d : Datum)
    (hints : ∀ i, .int i ∈ d.numbers → -0x8000000000000000 ≤ i ∧ i ≤ 0xFFFFFFFFFFFFFFFF)
    (hfloats : ∀ x, .float x ∈ d.numbers → x.isFinite = true) : d.legible = d := by
  induction d using Datum.induction with
  | bool | text => rfl
  | int i => exact if_pos (hints i List.mem_cons_self)
  | float x =>
      have hfinite := hfloats x List.mem_cons_self
      simp only [Double.isFinite, bne_iff_ne] at hfinite
      simp [legible, fold, legibleLeaf, Double.isNaN, Double.isInfinite, hfinite]
  | list items ih =>
      rw [legible_list]
      congr 1
      refine (List.map_congr_left fun d hd => ?_).trans (List.map_id items)
      exact ih d hd (fun i hi => hints i (mem_numbers_list hd hi))
        (fun x hx => hfloats x (mem_numbers_list hd hx))
  | map entries ih =>
      rw [legible_map]
      congr 1
      refine (List.map_congr_left fun e he => ?_).trans (List.map_id entries)
      exact Prod.ext rfl (ih e he (fun i hi => hints i (mem_numbers_map he hi))
        (fun x hx => hfloats x (mem_numbers_map he hx)))

end TypedSyntax.Datum

namespace TypedSyntax.Json

variable {style : Style}

/-- Between the parts of a value there are blanks only. -/
theorem blank_gap (style : Style) (level : Nat) : Blank (style.gap level) := by
  cases style with
  | compact => exact List.forall_mem_nil _
  | indented =>
      refine List.forall_mem_cons.mpr ⟨rfl, fun c hc => ?_⟩
      rw [List.eq_of_mem_replicate hc]
      rfl

theorem colon_eq (style : Style) : ∃ b, style.colon = ':' :: b ∧ Blank b := by
  cases style with
  | compact => exact ⟨[], rfl, List.forall_mem_nil _⟩
  | indented => exact ⟨[' '], rfl, List.forall_mem_singleton.mpr rfl⟩

/-- At every level the datum is written as a value, which is read as the
legible datum if enough levels remain. -/
def Faithful (style : Style) (d : Datum) : Prop :=
  ∀ level, ∃ v, Spelled (.value v) (write style level d) ∧
    ∀ depth, d.depth ≤ depth → toDatum? depth v = some d.legible

/-- What is written as a string is read as one. -/
theorem faithful_quoted {d : Datum} {s : String} (hwrite : ∀ level, write style level d = quoted s)
    (hlegible : d.legible = .text s) : Faithful style d := by
  intro level
  refine ⟨_, hwrite level ▸ spelled_quoted s, fun depth _ => ?_⟩
  rw [toDatum?, stringOf?_map_ofChar, Option.map_some, hlegible]

/-- Integers are read back, beyond 64 bits as their digits. -/
theorem faithful_int (i : Int) : Faithful style (.int i) := by
  have hlegible : (Datum.int i).legible =
      if Datum.fitsWord i then .int i else .text (toString i) := by
    have hfits : Datum.fitsWord i = true ↔ -0x8000000000000000 ≤ i ∧ i ≤ 0xFFFFFFFFFFFFFFFF := by
      simp only [Datum.fitsWord, Bool.and_eq_true, decide_eq_true_eq]
      omega
    simp only [hfits]
    rfl
  by_cases hi : Datum.fitsWord i = true
  · intro level
    refine ⟨.number (NumberText.ofInt i), ?_, fun depth _ => ?_⟩
    · rw [write, integer, if_pos hi]
      exact Spelled.number (numeral_toString i)
    · rw [toDatum?, value?_ofInt hi, hlegible, if_pos hi]
      rfl
  · refine faithful_quoted (s := toString i) (fun level => ?_) ?_
    · rw [write, integer, if_neg hi]
    · rw [hlegible, if_neg hi]

/-- A text that is read as a double is a number. -/
theorem number_of_toDatum? {v : Value} {x : Double} {depth : Nat}
    (h : toDatum? depth v = some (.float x)) :
    ∃ n, v = .number n ∧ n.value? = some (.float x) := by
  unfold toDatum? at h
  split at h
  case h_3 n =>
    obtain ⟨i | y, hvalue, hdatum⟩ := Option.map_eq_some_iff.mp h
    · cases hdatum
    · cases hdatum
      exact ⟨n, rfl, hvalue⟩
  case h_4 =>
    obtain ⟨_, -, hdatum⟩ := Option.map_eq_some_iff.mp h
    cases hdatum
  case h_5 | h_6 =>
    split at h
    · cases h
    · obtain ⟨_, -, hdatum⟩ := Option.map_eq_some_iff.mp h
      cases hdatum
  all_goals cases h

/-- Doubles are read back if the reader finds their digits. -/
theorem faithful_float {x : Double} (h : x.isFinite = true → Datum.ReadsBack x) :
    Faithful style (.float x) := by
  by_cases hfinite : x.isFinite = true
  · -- Whatever the text looks like: it is read as a number, so it is a numeral.
    intro level
    obtain ⟨v, hv, hread⟩ := Option.bind_eq_some_iff.mp (h hfinite)
    obtain ⟨n, rfl, hn⟩ := number_of_toDatum? hread
    refine ⟨.number n, ?_, fun depth _ => ?_⟩
    · have hspelled := spelled_of_ofText? hv
      rwa [Datum.compactJson, String.toList_ofList] at hspelled
    · simp only [Double.isFinite, bne_iff_ne] at hfinite
      rw [toDatum?, hn]
      simp [Number.toDatum, Datum.legible, Datum.fold, Datum.legibleLeaf, Double.isNaN,
        Double.isInfinite, hfinite]
  · refine faithful_quoted (s := Datum.nonFiniteName x) (fun level => ?_) ?_
    · rw [write, float, if_neg hfinite]
    · have hspecial : x.exponentField = 2047 := by simpa [Double.isFinite] using hfinite
      by_cases hfraction : x.fractionField = 0 <;>
        simp [Datum.legible, Datum.fold, Datum.legibleLeaf, Datum.nonFiniteName, Double.isNaN,
          Double.isInfinite, hspecial, hfraction]

/-- The written items of a list are spelled. -/
theorem spelled_items (level : Nat) (item : Datum) (items : List Datum)
    (h : ∀ d ∈ item :: items, Faithful style d) :
    ∃ vs, Spelled (.items vs) (style.gap (level + 1) ++
        (write style (level + 1) item ++ writeItems style level items)) ∧
      ∀ depth, (∀ d ∈ item :: items, d.depth ≤ depth) →
        toItems? depth vs = some ((item :: items).map Datum.legible) := by
  induction items generalizing item with
  | nil =>
      obtain ⟨v, hv, hread⟩ := h item List.mem_cons_self (level + 1)
      refine ⟨[v], ?_, fun depth hdepth => ?_⟩
      · -- The gap before the closing bracket pads the last item.
        have hitem := Spelled.lastItem
          (Spelled.padded (blank_gap style (level + 1)) (blank_gap style level) hv)
        simpa [writeItems] using hitem
      · simp [toItems?, hread depth (hdepth item List.mem_cons_self)]
  | cons next items ih =>
      obtain ⟨hitem, hitems⟩ := List.forall_mem_cons.mp h
      obtain ⟨v, hv, hread⟩ := hitem (level + 1)
      obtain ⟨vs, hvs, hreads⟩ := ih next hitems
      refine ⟨v :: vs, ?_, fun depth hdepth => ?_⟩
      · have hmore := Spelled.moreItems
          (Spelled.padded (blank_gap style (level + 1)) (List.forall_mem_nil _) hv) hvs
        simpa [writeItems] using hmore
      · obtain ⟨hhead, htail⟩ := List.forall_mem_cons.mp hdepth
        simp [toItems?, hread depth hhead, hreads depth htail]

/-- The written entries of a map are spelled. -/
theorem spelled_entries (level : Nat) (entry : String × Datum) (entries : List (String × Datum))
    (h : ∀ e ∈ entry :: entries, Faithful style e.2) :
    ∃ es, Spelled (.entries es) (style.gap (level + 1) ++ (quoted entry.1 ++ (style.colon ++
        (write style (level + 1) entry.2 ++ writeEntries style level entries)))) ∧
      ∀ depth, (∀ e ∈ entry :: entries, e.2.depth ≤ depth) →
        toEntries? depth es = some ((entry :: entries).map fun e => (e.1, e.2.legible)) := by
  obtain ⟨b, hcolon, hb⟩ := colon_eq style
  induction entries generalizing entry with
  | nil =>
      obtain ⟨v, hv, hread⟩ := h entry List.mem_cons_self (level + 1)
      refine ⟨[(entry.1.toList.map Piece.ofChar, v)], ?_, fun depth hdepth => ?_⟩
      · have hentry := Spelled.lastEntry (blank_gap style (level + 1))
          (body_flatMap_escape entry.1.toList) (List.forall_mem_nil _)
          (Spelled.padded hb (blank_gap style level) hv)
        simpa [writeEntries, quoted, hcolon] using hentry
      · simp [toEntries?, stringOf?_map_ofChar, hread depth (hdepth entry List.mem_cons_self)]
  | cons next entries ih =>
      obtain ⟨hentry, hentries⟩ := List.forall_mem_cons.mp h
      obtain ⟨v, hv, hread⟩ := hentry (level + 1)
      obtain ⟨es, hes, hreads⟩ := ih next hentries
      refine ⟨(entry.1.toList.map Piece.ofChar, v) :: es, ?_, fun depth hdepth => ?_⟩
      · have hmore := Spelled.moreEntries (blank_gap style (level + 1))
          (body_flatMap_escape entry.1.toList) (List.forall_mem_nil _)
          (Spelled.padded hb (List.forall_mem_nil _) hv) hes
        simpa [writeEntries, quoted, hcolon] using hmore
      · obtain ⟨hhead, htail⟩ := List.forall_mem_cons.mp hdepth
        simp [toEntries?, stringOf?_map_ofChar, hread depth hhead, hreads depth htail]

/-- Every datum is written faithfully if its finite doubles are. -/
theorem faithful (style : Style) (d : Datum)
    (h : ∀ x, .float x ∈ d.numbers → x.isFinite = true → Datum.ReadsBack x) :
    Faithful style d := by
  induction d using Datum.induction with
  | bool b =>
      intro level
      cases b with
      | true => exact ⟨.bool true, Spelled.true, fun _ _ => rfl⟩
      | false => exact ⟨.bool false, Spelled.false, fun _ _ => rfl⟩
  | int i => exact faithful_int i
  | float x => exact faithful_float (h x List.mem_cons_self)
  | text s => exact faithful_quoted (fun _ => rfl) rfl
  | list items ih =>
      intro level
      have hitems : ∀ d ∈ items, Faithful style d :=
        fun d hd => ih d hd fun x hx => h x (Datum.mem_numbers_list hd hx)
      obtain ⟨vs, hvs, hreads⟩ :
          ∃ vs, Spelled (.value (.list vs)) (write style level (.list items)) ∧
            ∀ depth, (∀ d ∈ items, d.depth ≤ depth) →
              toItems? depth vs = some (items.map Datum.legible) := by
        cases items with
        | nil => exact ⟨[], Spelled.emptyList (List.forall_mem_nil _), fun _ _ => rfl⟩
        | cons item items =>
            obtain ⟨vs, hvs, hreads⟩ := spelled_items level item items hitems
            exact ⟨vs, by simpa [write] using Spelled.list hvs, hreads⟩
      refine ⟨.list vs, hvs, fun depth hdepth => ?_⟩
      cases depth with
      | zero => cases hdepth
      | succ depth =>
          have hbelow : ∀ d ∈ items, d.depth ≤ depth := fun d hd =>
            Nat.le_of_lt_succ (Nat.lt_of_lt_of_le (Datum.depth_lt_of_mem_items hd) hdepth)
          rw [toDatum?, hreads depth hbelow, Option.map_some, Datum.legible_list]
  | map entries ih =>
      intro level
      have hentries : ∀ e ∈ entries, Faithful style e.2 :=
        fun e he => ih e he fun x hx => h x (Datum.mem_numbers_map he hx)
      obtain ⟨es, hes, hreads⟩ :
          ∃ es, Spelled (.value (.object es)) (write style level (.map entries)) ∧
            ∀ depth, (∀ e ∈ entries, e.2.depth ≤ depth) →
              toEntries? depth es = some (entries.map fun e => (e.1, e.2.legible)) := by
        cases entries with
        | nil => exact ⟨[], Spelled.emptyObject (List.forall_mem_nil _), fun _ _ => rfl⟩
        | cons entry entries =>
            obtain ⟨es, hes, hreads⟩ := spelled_entries level entry entries hentries
            exact ⟨es, by simpa [write] using Spelled.object hes, hreads⟩
      refine ⟨.object es, hes, fun depth hdepth => ?_⟩
      cases depth with
      | zero => cases hdepth
      | succ depth =>
          have hbelow : ∀ e ∈ entries, e.2.depth ≤ depth := fun e he =>
            Nat.le_of_lt_succ (Nat.lt_of_lt_of_le (Datum.depth_lt_of_mem_entries he) hdepth)
          rw [toDatum?, hreads depth hbelow, Option.map_some, Datum.legible_map]

/-- Both texts of a datum are read as the legible datum. -/
theorem ofJson?_write (d : Datum) (hdepth : d.depth ≤ maxDepth)
    (h : ∀ x, .float x ∈ d.numbers → x.isFinite = true → Datum.ReadsBack x) :
    Datum.ofJson? (String.ofList (write style 0 d)) = some d.legible := by
  obtain ⟨v, hv, hread⟩ := faithful style d h 0
  have hspelled : Spelled (.value v) (String.ofList (write style 0 d)).toList := by
    rwa [String.toList_ofList]
  rw [Datum.ofJson?, hspelled.ofText?_eq, Option.bind_some, hread maxDepth hdepth]

end TypedSyntax.Json

namespace TypedSyntax.Datum

open Json

/-- A datum within the greatest depth, whose finite doubles are read back
number by number, is read back from its indented and its compact text. Texts
stand for the numbers that JSON cannot write; without such numbers the datum
itself is read. -/
theorem ofJson?_json (d : Datum) (hdepth : d.depth ≤ 127)
    (hfloats : ∀ x, .float x ∈ d.numbers → x.isFinite = true → ReadsBack x) :
    ofJson? d.json = some d.legible ∧ ofJson? d.compactJson = some d.legible ∧
      ((∀ i, .int i ∈ d.numbers → -0x8000000000000000 ≤ i ∧ i ≤ 0xFFFFFFFFFFFFFFFF) →
        (∀ x, .float x ∈ d.numbers → x.isFinite = true) →
          ofJson? d.json = some d ∧ ofJson? d.compactJson = some d) := by
  have hjson : ofJson? d.json = some d.legible := Json.ofJson?_write d hdepth hfloats
  have hcompact : ofJson? d.compactJson = some d.legible := Json.ofJson?_write d hdepth hfloats
  refine ⟨hjson, hcompact, fun hints hfinite => ?_⟩
  have hself := legible_eq_self d hints hfinite
  exact ⟨by rw [hjson, hself], by rw [hcompact, hself]⟩

theorem readsBack_one_and_a_half : ReadsBack ⟨0x3FF8000000000000⟩ := by
  have htext : (Datum.float ⟨0x3FF8000000000000⟩).compactJson = "1.5" := by decide +kernel
  have hvalue : Value.ofText? "1.5" = some (.number ⟨false, [1], [5], none⟩) := by rfl
  have hnumber : NumberText.value? ⟨false, [1], [5], none⟩ =
      some (.float ⟨0x3FF8000000000000⟩) := by
    decide +kernel
  rw [ReadsBack, htext, ofJson?, hvalue, Option.bind_some, toDatum?, hnumber]
  rfl

/-- A repeated empty key, an escaped key, an integer of 65 bits, a finite
double and a NaN. -/
def mixed : Datum :=
  .map [("", .list []), ("", .int 0x10000000000000000), ("a\n\"", .float ⟨0x3FF8000000000000⟩),
    ("n", .float ⟨0x7FF8000000000000⟩), ("e", .empty)]

/-- A value with repeated keys, a wide integer and a double that is no number is read in
both layouts. -/
theorem ofJson?_mixed_json :
    mixed.depth ≤ 127 ∧ (∀ x, .float x ∈ mixed.numbers → x.isFinite = true → ReadsBack x) ∧
      ofJson? mixed.json = some mixed.legible ∧ ofJson? mixed.compactJson = some mixed.legible ∧
      mixed.legible = .map [("", .list []), ("", .text "18446744073709551616"),
        ("a\n\"", .float ⟨0x3FF8000000000000⟩), ("n", .text "nan"), ("e", .empty)] := by
  have hdepth : mixed.depth ≤ 127 := by decide
  have hfloats : ∀ x, .float x ∈ mixed.numbers → x.isFinite = true → ReadsBack x := by
    intro x hx hfinite
    have hnumbers : mixed.numbers = [.int 0x10000000000000000, .float ⟨0x3FF8000000000000⟩,
      .float ⟨0x7FF8000000000000⟩] := by decide
    simp only [hnumbers, List.mem_cons, Number.float.injEq, List.not_mem_nil, or_false,
      reduceCtorEq, false_or] at hx
    rcases hx with rfl | rfl
    · exact readsBack_one_and_a_half
    · cases hfinite
  obtain ⟨hjson, hcompact, -⟩ := ofJson?_json mixed hdepth hfloats
  exact ⟨hdepth, hfloats, hjson, hcompact, rfl⟩

end TypedSyntax.Datum
