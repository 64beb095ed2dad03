import Mathlib.Data.List.Induction
import Mathlib.Logic.ExistsUnique
import Mathlib.Tactic.IntervalCases
import TypedSyntax.Literal
import TypedSyntax.Proofs.Outcome
import TypedSyntax.Proofs.Text.Split

/-!
# The grammar of temporal texts

Days and times of day, and the texts that write them. The checks accept exactly these texts;
each value has exactly one text, and no text writes two values.
-/

namespace TypedSyntax.Temporal

/-! ## Fields -/

/-- The characters write a number in exactly so many decimal digits. -/
inductive Field : (width n : Nat) → List Char → Prop
  | nil : Field 0 0 []
  | concat {width n cs d} : Field width n cs → d < 10 →
      Field (width + 1) (10 * n + d) (cs ++ [d.digitChar])

variable {width n : Nat} {cs cs' : List Char}

theorem digitChar_of_lt {d : Nat} (h : d < 10) :
    d.digitChar.isDigit = true ∧ Text.decimalValue d.digitChar = d := by
  have hall : ∀ d < 10, d.digitChar.isDigit = true ∧ Text.decimalValue d.digitChar = d := by
    decide
  exact hall d h

theorem digitChar_decimalValue {c : Char} (h : c.isDigit = true) :
    (Text.decimalValue c).digitChar = c := by
  obtain ⟨hdigit, hvalue⟩ := digitChar_of_lt (Text.decimalValue_lt h)
  exact Text.eq_of_decimalValue_eq hdigit h hvalue

/-- A further digit is worth one, and the others ten times as much. -/
theorem ofDecimal_concat (cs : List Char) (c : Char) :
    Text.ofDecimal (cs ++ [c]) = 10 * Text.ofDecimal cs + Text.decimalValue c := by
  simp [Text.ofDecimal, Text.ofDigits]

namespace Field

theorem length_eq (h : Field width n cs) : cs.length = width := by
  induction h with
  | nil => rfl
  | concat _ _ ih => rw [List.length_append, ih, List.length_singleton]

theorem isDigit (h : Field width n cs) : ∀ c ∈ cs, c.isDigit = true := by
  induction h with
  | nil => simp
  | concat _ hd ih =>
      exact List.forall_mem_append.mpr
        ⟨ih, List.forall_mem_singleton.mpr (digitChar_of_lt hd).1⟩

theorem ofDecimal_eq (h : Field width n cs) : Text.ofDecimal cs = n := by
  induction h with
  | nil => rfl
  | concat _ hd ih => rw [ofDecimal_concat, ih, (digitChar_of_lt hd).2]

/-- Digits are a field of their own number. -/
theorem of_digits (cs : List Char) (h : ∀ c ∈ cs, c.isDigit = true) :
    Field cs.length (Text.ofDecimal cs) cs := by
  induction cs using List.reverseRecOn with
  | nil => exact nil
  | append_singleton cs c ih =>
      obtain ⟨hcs, hc⟩ := List.forall_mem_append.mp h
      rw [List.forall_mem_singleton] at hc
      have hlong := (ih hcs).concat (Text.decimalValue_lt hc)
      rw [digitChar_decimalValue hc, ← ofDecimal_concat] at hlong
      rwa [List.length_append, List.length_singleton]

/-- A field of some width has a number with so many digits. -/
theorem lt (h : Field width n cs) : n < 10 ^ width := by
  induction h with
  | nil => exact Nat.one_pos
  | concat _ hd ih =>
      rw [Nat.pow_succ]
      omega

/-- Every such number is written in a field. -/
theorem exists_of_lt (width : Nat) {n : Nat} (h : n < 10 ^ width) : ∃ cs, Field width n cs := by
  induction width generalizing n with
  | zero =>
      obtain rfl := Nat.lt_one_iff.mp h
      exact ⟨[], nil⟩
  | succ width ih =>
      obtain ⟨cs, hcs⟩ := ih (n := n / 10) (by
        rw [Nat.pow_succ] at h
        omega)
      have hlong := hcs.concat (Nat.mod_lt n (by decide : 10 > 0))
      rw [Nat.div_add_mod] at hlong
      exact ⟨_, hlong⟩

/-- A number has only one text of a width. -/
theorem eq (h : Field width n cs) (h' : Field width n cs') : cs = cs' := by
  induction h generalizing cs' with
  | nil => exact (List.length_eq_zero_iff.mp h'.length_eq).symm
  | @concat width n cs d _ hd ih =>
      generalize hn : 10 * n + d = whole at h'
      cases h' with
      | @concat _ n' _ d' h' hd' =>
          obtain rfl : n = n' := by omega
          obtain rfl : d = d' := by omega
          rw [ih h']

/-- The number is told by its text. -/
theorem value_eq {n' : Nat} (h : Field width n cs) (h' : Field width n' cs) : n = n' :=
  h.ofDecimal_eq.symm.trans h'.ofDecimal_eq

end Field

/-- A field is read exactly if it has the width and digits only. -/
theorem digits?_eq_some_iff : digits? width cs = some n ↔ Field width n cs := by
  simp only [digits?, Option.ite_none_right_eq_some, Option.some.injEq, List.all_eq_true]
  constructor
  · rintro ⟨⟨rfl, hdigits⟩, rfl⟩
    exact Field.of_digits cs hdigits
  · intro h
    exact ⟨⟨h.length_eq, h.isDigit⟩, h.ofDecimal_eq⟩

/-- Three numbers with a separator between them. -/
inductive Fields (separator : Char) (width x y z : Nat) : List Char → Prop
  | mk {xs ys zs} : Field width x xs → Field 2 y ys → Field 2 z zs →
      Fields separator width x y z (xs ++ separator :: (ys ++ separator :: zs))

section Fields

variable {separator : Char} {x y z x' y' z' : Nat} {text text' : List Char}

theorem Field.notMem (h : Field width n cs) (hseparator : separator.isDigit = false) :
    separator ∉ cs := by
  intro hmem
  rw [h.isDigit _ hmem] at hseparator
  cases hseparator

/-- The pieces of a text are its fields. -/
theorem fields_iff (hseparator : separator.isDigit = false) :
    Fields separator width x y z text ↔
      ∃ xs ys zs, Text.pieces separator text = [xs, ys, zs] ∧ digits? width xs = some x ∧
        digits? 2 ys = some y ∧ digits? 2 zs = some z := by
  simp only [digits?_eq_some_iff]
  constructor
  · rintro ⟨hx, hy, hz⟩
    refine ⟨_, _, _, ?_, hx, hy, hz⟩
    rw [Text.pieces_append (hx.notMem hseparator), Text.pieces_append (hy.notMem hseparator),
      Text.pieces_of_notMem (hz.notMem hseparator)]
  · rintro ⟨xs, ys, zs, hpieces, hx, hy, hz⟩
    obtain ⟨below, rfl, -, hbelow⟩ := Text.pieces_eq_cons_iff.mp hpieces
    obtain ⟨last, rfl, -, hlast⟩ := Text.pieces_eq_cons_iff.mp hbelow
    obtain ⟨rfl, -⟩ := Text.pieces_eq_singleton_iff.mp hlast
    exact Fields.mk hx hy hz

/-- A check of the three numbers of a text. -/
theorem match_fields_iff (hseparator : separator.isDigit = false) (valid : Nat → Nat → Nat → Bool) :
    (match Text.pieces separator text with
      | [xs, ys, zs] =>
        match digits? width xs, digits? 2 ys, digits? 2 zs with
        | some x, some y, some z => valid x y z
        | _, _, _ => false
      | _ => false) = true ↔
      ∃ x y z, Fields separator width x y z text ∧ valid x y z = true := by
  simp only [fields_iff hseparator]
  constructor
  · intro h
    split at h
    · next xs ys zs hpieces =>
      split at h
      · next x y z hx hy hz => exact ⟨x, y, z, ⟨xs, ys, zs, hpieces, hx, hy, hz⟩, h⟩
      · cases h
    · cases h
  · rintro ⟨x, y, z, ⟨xs, ys, zs, hpieces, hx, hy, hz⟩, h⟩
    simp only [hpieces, hx, hy, hz, h]

theorem Fields.exists_of_lt (separator : Char) (width : Nat) (hx : x < 10 ^ width) (hy : y < 100)
    (hz : z < 100) : ∃ text, Fields separator width x y z text := by
  obtain ⟨xs, hxs⟩ := Field.exists_of_lt width hx
  obtain ⟨ys, hys⟩ := Field.exists_of_lt 2 hy
  obtain ⟨zs, hzs⟩ := Field.exists_of_lt 2 hz
  exact ⟨_, Fields.mk hxs hys hzs⟩

/-- Three numbers are written in one way. -/
theorem Fields.eq (h : Fields separator width x y z text)
    (h' : Fields separator width x y z text') : text = text' := by
  obtain ⟨hx, hy, hz⟩ := h
  obtain ⟨hx', hy', hz'⟩ := h'
  rw [hx.eq hx', hy.eq hy', hz.eq hz']

/-- The numbers are told by the text. -/
theorem Fields.values_eq (h : Fields separator width x y z text)
    (h' : Fields separator width x' y' z' text) : x = x' ∧ y = y' ∧ z = z' := by
  obtain @⟨xs, ys, zs, hx, hy, hz⟩ := h
  generalize htext : xs ++ separator :: (ys ++ separator :: zs) = text at h'
  obtain ⟨hx', hy', hz'⟩ := h'
  obtain ⟨rfl, hrest⟩ := List.append_inj htext (hx.length_eq.trans hx'.length_eq.symm)
  obtain ⟨rfl, hlast⟩ :=
    List.append_inj (List.cons.inj hrest).2 (hy.length_eq.trans hy'.length_eq.symm)
  obtain rfl := (List.cons.inj hlast).2
  exact ⟨hx.value_eq hx', hy.value_eq hy', hz.value_eq hz'⟩

theorem Fields.mem (h : Fields separator width x y z text) :
    separator ∈ text ∧ ∀ c ∈ text, c.isDigit = true ∨ c = separator := by
  obtain ⟨hx, hy, hz⟩ := h
  refine ⟨by simp, fun c hc => ?_⟩
  simp only [List.mem_append, List.mem_cons] at hc
  rcases hc with hc | rfl | hc | rfl | hc
  · exact .inl (hx.isDigit c hc)
  · exact .inr rfl
  · exact .inl (hy.isDigit c hc)
  · exact .inr rfl
  · exact .inl (hz.isDigit c hc)

end Fields

/-! ## Days -/

/-- The leap years of the Gregorian calendar. -/
def IsLeap (year : Nat) : Prop :=
  400 ∣ year ∨ (4 ∣ year ∧ ¬ 100 ∣ year)

instance (year : Nat) : Decidable (IsLeap year) := inferInstanceAs (Decidable (_ ∨ _))

def monthLengths (year : Nat) : List Nat :=
  [31, if IsLeap year then 29 else 28, 31, 30, 31, 30, 31, 31, 30, 31, 30, 31]

/-- After 400 years the calendar begins again. -/
example : ((List.range 400).map fun n => (monthLengths (n + 1)).sum).sum = 146097 := by
  decide +kernel

/-- A day of the calendar with a year of four digits. -/
structure Day where
  year : Nat
  month : Nat
  day : Nat
  year_pos : 1 ≤ year
  year_le : year ≤ 9999
  month_pos : 1 ≤ month
  day_pos : 1 ≤ day
  day_le : ∃ length ∈ (monthLengths year)[month - 1]?, day ≤ length

/-- The text of a day, `YYYY-MM-DD`. -/
def Day.Written (d : Day) (text : List Char) : Prop :=
  Fields '-' 4 d.year d.month d.day text

/-- The test for leap years follows the rule of the calendar. -/
theorem isLeapYear_iff {year : Nat} : isLeapYear year = true ↔ IsLeap year := by
  simp only [isLeapYear, IsLeap, Nat.dvd_iff_mod_eq_zero, Bool.and_eq_true, Bool.or_eq_true,
    beq_iff_eq, bne_iff_ne]
  omega

/-- There are twelve months, of at most 31 days. -/
theorem length_of_month {year month length : Nat}
    (h : length ∈ (monthLengths year)[month - 1]?) : month ≤ 12 ∧ length ≤ 31 := by
  obtain ⟨hlt, hlength⟩ := List.getElem?_eq_some_iff.mp (Option.mem_def.mp h)
  have hsize : (monthLengths year).length = 12 := rfl
  have hall : ∀ l ∈ monthLengths year, l ≤ 31 := by
    unfold monthLengths
    split <;> decide
  exact ⟨by omega, hall length (hlength ▸ List.getElem_mem hlt)⟩

theorem daysInMonth_mem {year month : Nat} (hpos : 1 ≤ month) (hle : month ≤ 12) :
    daysInMonth year month ∈ (monthLengths year)[month - 1]? := by
  have hleap : (if IsLeap year then 29 else 28) = if isLeapYear year then 29 else 28 := by
    simp only [isLeapYear_iff]
  unfold monthLengths
  rw [hleap]
  interval_cases month <;> rfl

/-- A day of the calendar is one of its month, which is one of its year. -/
theorem isCalendarDay_iff {year month day : Nat} :
    isCalendarDay year month day = true ↔ 1 ≤ year ∧ 1 ≤ month ∧ 1 ≤ day ∧
      ∃ length ∈ (monthLengths year)[month - 1]?, day ≤ length := by
  simp only [isCalendarDay, Bool.and_eq_true, bne_iff_ne, decide_eq_true_eq]
  constructor
  · rintro ⟨⟨⟨⟨hyear, hpos⟩, hle⟩, hday⟩, hlength⟩
    exact ⟨by omega, hpos, by omega, _, daysInMonth_mem hpos hle, hlength⟩
  · rintro ⟨hyear, hpos, hday, length, hlength, hle⟩
    have hmonth := (length_of_month hlength).1
    have hsame : length = daysInMonth year month :=
      Option.mem_unique hlength (daysInMonth_mem hpos hmonth)
    exact ⟨⟨⟨⟨by omega, hpos⟩, hmonth⟩, by omega⟩, hsame ▸ hle⟩

/-- The check of dates accepts the texts of the days. -/
theorem isDate_iff {text : List Char} : isDate text = true ↔ ∃ d : Day, d.Written text := by
  have hfields : isDate text = true ↔ ∃ year month day,
      Fields '-' 4 year month day text ∧ isCalendarDay year month day = true :=
    match_fields_iff (by decide) isCalendarDay
  rw [hfields]
  constructor
  · rintro ⟨year, month, day, htext, hvalid⟩
    obtain ⟨hyear, hmonth, hday, hlength⟩ := isCalendarDay_iff.mp hvalid
    have hlt : year < 10 ^ 4 := by
      obtain ⟨hx, -, -⟩ := htext
      exact hx.lt
    exact ⟨⟨year, month, day, hyear, by omega, hmonth, hday, hlength⟩, htext⟩
  · rintro ⟨d, htext⟩
    exact ⟨_, _, _, htext, isCalendarDay_iff.mpr ⟨d.year_pos, d.month_pos, d.day_pos, d.day_le⟩⟩

/-- Every day is written. -/
theorem Day.exists_written (d : Day) : ∃ text, d.Written text := by
  obtain ⟨length, hlength, hday⟩ := d.day_le
  obtain ⟨hmonth, hle⟩ := length_of_month hlength
  have hyear := d.year_le
  exact Fields.exists_of_lt '-' 4 (by omega) (by omega) (by omega)

/-! ## Times of day -/

/-- A time of day; its fraction is kept as digits. -/
structure Clock where
  hour : Nat
  minute : Nat
  second : Nat
  fraction : Option (List Char)
  hour_le : hour ≤ 23
  minute_le : minute ≤ 59
  second_le : second ≤ 59
  fraction_digits : ∀ ds ∈ fraction, ds ≠ [] ∧ ∀ c ∈ ds, c.isDigit = true

/-- The text of a time, `HH:MM:SS`, with a point before its fraction. -/
inductive Clock.Written (c : Clock) : List Char → Prop
  | whole {text} : Fields ':' 2 c.hour c.minute c.second text → c.fraction = none →
      Clock.Written c text
  | fraction {text ds} : Fields ':' 2 c.hour c.minute c.second text → c.fraction = some ds →
      Clock.Written c (text ++ '.' :: ds)

theorem Clock.notMem_point {c : Clock} {text : List Char}
    (h : Fields ':' 2 c.hour c.minute c.second text) : '.' ∉ text := by
  intro hmem
  rcases h.mem.2 _ hmem with hdigit | hcolon
  · cases hdigit
  · cases hcolon

/-- A clock has three fields within their bounds. -/
theorem isClock_iff {text : List Char} : isClock text = true ↔ ∃ hour minute second,
    Fields ':' 2 hour minute second text ∧ hour ≤ 23 ∧ minute ≤ 59 ∧ second ≤ 59 := by
  have hfields : isClock text = true ↔ ∃ hour minute second, Fields ':' 2 hour minute second text ∧
      (decide (hour ≤ 23) && decide (minute ≤ 59) && decide (second ≤ 59)) = true :=
    match_fields_iff (by decide) _
  simp only [hfields, Bool.and_eq_true, decide_eq_true_eq, and_assoc]

/-- The check of times accepts the texts of the times of day. -/
theorem isTime_iff {text : List Char} : isTime text = true ↔ ∃ c : Clock, c.Written text := by
  constructor
  · intro h
    unfold isTime at h
    split at h
    · obtain ⟨hour, minute, second, htext, hhour, hminute, hsecond⟩ := isClock_iff.mp h
      exact ⟨⟨hour, minute, second, none, hhour, hminute, hsecond, by simp⟩,
        Clock.Written.whole htext rfl⟩
    · next clock fraction hcut =>
      simp only [Bool.and_eq_true, Bool.not_eq_true', List.isEmpty_eq_false_iff,
        List.all_eq_true] at h
      obtain ⟨⟨hclock, hne⟩, hdigits⟩ := h
      obtain ⟨hour, minute, second, htext, hhour, hminute, hsecond⟩ := isClock_iff.mp hclock
      obtain ⟨rfl, -⟩ := Text.cutOnce?_eq_some_iff.mp hcut
      exact ⟨⟨hour, minute, second, some fraction, hhour, hminute, hsecond,
        fun ds hds => Option.some.inj hds ▸ ⟨hne, hdigits⟩⟩, Clock.Written.fraction htext rfl⟩
  · rintro ⟨c, hc⟩
    cases hc with
    | whole htext hfraction =>
        rw [isTime, Text.cutOnce?_eq_none_iff.mpr (Clock.notMem_point htext)]
        exact isClock_iff.mpr ⟨_, _, _, htext, c.hour_le, c.minute_le, c.second_le⟩
    | fraction htext hfraction =>
        obtain ⟨hne, hdigits⟩ := c.fraction_digits _ hfraction
        have hclock := isClock_iff.mpr ⟨_, _, _, htext, c.hour_le, c.minute_le, c.second_le⟩
        rw [isTime, Text.cutOnce?_append (Clock.notMem_point htext)]
        simpa [hclock, hne] using hdigits

/-- Every time of day is written. -/
theorem Clock.exists_written (c : Clock) : ∃ text, c.Written text := by
  have hhour := c.hour_le
  have hminute := c.minute_le
  have hsecond := c.second_le
  obtain ⟨text, htext⟩ := Fields.exists_of_lt ':' 2 (x := c.hour) (y := c.minute)
    (z := c.second) (by omega) (by omega) (by omega)
  cases hfraction : c.fraction with
  | none => exact ⟨text, Written.whole htext hfraction⟩
  | some ds => exact ⟨text ++ '.' :: ds, Written.fraction htext hfraction⟩

variable {text text' : List Char}

/-- A time of day is written in one way. -/
theorem Clock.Written.eq {c : Clock} (h : c.Written text) (h' : c.Written text') :
    text = text' := by
  cases h with
  | whole htext hfraction =>
      cases h' with
      | whole htext' => exact htext.eq htext'
      | fraction _ hfraction' => cases hfraction.symm.trans hfraction'
  | fraction htext hfraction =>
      cases h' with
      | whole _ hfraction' => cases hfraction.symm.trans hfraction'
      | fraction htext' hfraction' =>
          rw [htext.eq htext', Option.some.inj (hfraction.symm.trans hfraction')]

/-- A time is told by its text. -/
theorem Clock.Written.clock_eq {c c' : Clock} (h : c.Written text) (h' : c'.Written text) :
    c = c' := by
  have hext : ∀ {text}, Fields ':' 2 c.hour c.minute c.second text →
      Fields ':' 2 c'.hour c'.minute c'.second text → c.fraction = c'.fraction → c = c' := by
    intro text htext htext' hfraction
    obtain ⟨hhour, hminute, hsecond⟩ := htext.values_eq htext'
    cases c
    cases c'
    simp_all
  cases h with
  | whole htext hfraction =>
      cases h' with
      | whole htext' hfraction' => exact hext htext htext' (hfraction.trans hfraction'.symm)
      | fraction => exact absurd (by simp) (notMem_point htext)
  | @fraction above ds htext hfraction =>
      generalize hwhole : above ++ '.' :: ds = whole at h'
      cases h' with
      | whole htext' => exact absurd (by simp [← hwhole]) (notMem_point htext')
      | fraction htext' hfraction' =>
          have hcut := Text.cutOnce?_append (notMem_point htext) ds
          rw [hwhole, Text.cutOnce?_append (notMem_point htext')] at hcut
          obtain ⟨rfl, rfl⟩ := Prod.mk.inj (Option.some.inj hcut)
          exact hext htext htext' (hfraction.trans hfraction'.symm)

/-- A text is that of one day. -/
theorem Day.Written.day_eq {d d' : Day} (h : d.Written text) (h' : d'.Written text) : d = d' := by
  obtain ⟨hyear, hmonth, hday⟩ := Fields.values_eq h h'
  cases d
  cases d'
  simp_all

/-! ## Moments -/

/-- The four kinds of temporal literals. -/
inductive Form where
  | date
  | time
  | dateTime
  | timestamp
deriving DecidableEq, Repr

/-- A value of a temporal literal. -/
inductive Moment where
  | date (day : Day)
  | time (clock : Clock)
  | dateTime (day : Day) (clock : Clock)
  | timestamp (day : Day) (clock : Clock)

namespace Moment

def form : Moment → Form
  | date _ => .date
  | time _ => .time
  | dateTime .. => .dateTime
  | timestamp .. => .timestamp

/-- The texts of moments: a day and a time have the letter T or a space between them. -/
inductive Written : Moment → List Char → Prop
  | date {d text} : d.Written text → Written (date d) text
  | time {c text} : c.Written text → Written (time c) text
  | dateTime {d c day clock} : d.Written day → c.Written clock →
      Written (dateTime d c) (day ++ 'T' :: clock)
  | timestamp {d c day clock} : d.Written day → c.Written clock →
      Written (timestamp d c) (day ++ ' ' :: clock)

/-- Every moment is written. -/
theorem exists_written (m : Moment) : ∃ text, m.Written text := by
  cases m with
  | date d => exact d.exists_written.imp fun _ => Written.date
  | time c => exact c.exists_written.imp fun _ => Written.time
  | dateTime d c =>
      obtain ⟨day, hday⟩ := d.exists_written
      obtain ⟨clock, hclock⟩ := c.exists_written
      exact ⟨_, Written.dateTime hday hclock⟩
  | timestamp d c =>
      obtain ⟨day, hday⟩ := d.exists_written
      obtain ⟨clock, hclock⟩ := c.exists_written
      exact ⟨_, Written.timestamp hday hclock⟩

/-- A moment is written in one way. -/
theorem Written.eq {m : Moment} (h : m.Written text) (h' : m.Written text') : text = text' := by
  cases h with
  | date hd =>
      cases h' with
      | date hd' => exact Fields.eq hd hd'
  | time hc =>
      cases h' with
      | time hc' => exact hc.eq hc'
  | dateTime hd hc =>
      cases h' with
      | dateTime hd' hc' => rw [Fields.eq hd hd', hc.eq hc']
  | timestamp hd hc =>
      cases h' with
      | timestamp hd' hc' => rw [Fields.eq hd hd', hc.eq hc']

end Moment

/-! ## One value for each text -/

/-- Characters that stand in no day. -/
theorem Day.Written.notMem {d : Day} (h : d.Written text) {c : Char} (hdigit : c.isDigit = false)
    (hc : c ≠ '-') : c ∉ text := by
  intro hmem
  rcases (Fields.mem h).2 c hmem with hmem | hmem
  · rw [hmem] at hdigit
    cases hdigit
  · exact hc hmem

theorem Clock.Written.mem {c : Clock} (h : c.Written text) :
    ':' ∈ text ∧ ∀ d ∈ text, d.isDigit = true ∨ d = ':' ∨ d = '.' := by
  cases h with
  | whole htext =>
      obtain ⟨hcolon, hall⟩ := htext.mem
      exact ⟨hcolon, fun d hd => (hall d hd).imp_right Or.inl⟩
  | fraction htext hfraction =>
      obtain ⟨hcolon, hall⟩ := htext.mem
      obtain ⟨-, hdigits⟩ := c.fraction_digits _ hfraction
      refine ⟨List.mem_append_left _ hcolon, fun d hd => ?_⟩
      rcases List.mem_append.mp hd with hd | hd
      · exact (hall d hd).imp_right Or.inl
      · rcases List.mem_cons.mp hd with rfl | hd
        · exact .inr (.inr rfl)
        · exact .inl (hdigits d hd)

theorem Clock.Written.notMem {c : Clock} (h : c.Written text) {d : Char}
    (hdigit : d.isDigit = false) (hcolon : d ≠ ':') (hpoint : d ≠ '.') : d ∉ text := by
  intro hmem
  rcases h.mem.2 d hmem with hmem | hmem | hmem
  · rw [hmem] at hdigit
    cases hdigit
  · exact hcolon hmem
  · exact hpoint hmem

/-- The kind of moment whose text has certain marks. -/
def formOf (text : List Char) : Form :=
  if 'T' ∈ text then .dateTime
  else if ' ' ∈ text then .timestamp
  else if ':' ∈ text then .time
  else .date

namespace Moment

/-- The separators of a text tell its form. -/
theorem Written.form_eq {m : Moment} (h : m.Written text) : m.form = formOf text := by
  unfold formOf
  cases h with
  | date hd =>
      rw [if_neg (hd.notMem (by decide) (by decide)), if_neg (hd.notMem (by decide) (by decide)),
        if_neg (hd.notMem (by decide) (by decide))]
      rfl
  | time hc =>
      rw [if_neg (hc.notMem (by decide) (by decide) (by decide)),
        if_neg (hc.notMem (by decide) (by decide) (by decide)), if_pos hc.mem.1]
      rfl
  | dateTime =>
      rw [if_pos (by simp)]
      rfl
  | @timestamp d c day clock hd hc =>
      have hletter : 'T' ∉ day ++ ' ' :: clock := by
        simp only [List.mem_append, List.mem_cons, not_or]
        exact ⟨hd.notMem (by decide) (by decide), by decide,
          hc.notMem (by decide) (by decide) (by decide)⟩
      rw [if_neg hletter, if_pos (by simp)]
      rfl

/-- The parts of a text are told by the mark between them, which is in no day. -/
theorem parts_eq {mark : Char} {d d' : Day} {c c' : Clock} {day day' clock clock' : List Char}
    (hdigit : mark.isDigit = false) (hmark : mark ≠ '-') (hd : d.Written day)
    (hd' : d'.Written day') (hc : c.Written clock) (hc' : c'.Written clock')
    (h : day ++ mark :: clock = day' ++ mark :: clock') : d = d' ∧ c = c' := by
  have hcut := Text.cutOnce?_append (hd.notMem hdigit hmark) clock
  rw [h, Text.cutOnce?_append (hd'.notMem hdigit hmark)] at hcut
  obtain ⟨rfl, rfl⟩ := Prod.mk.inj (Option.some.inj hcut)
  exact ⟨hd.day_eq hd', hc.clock_eq hc'⟩

/-- A moment is told by its text. -/
theorem Written.moment_eq {m m' : Moment} (h : m.Written text) (h' : m'.Written text) :
    m = m' := by
  have hform := h.form_eq.trans h'.form_eq.symm
  cases h with
  | date hd =>
      cases h' with
      | date hd' => rw [hd.day_eq hd']
      | time | dateTime | timestamp => cases hform
  | time hc =>
      cases h' with
      | time hc' => rw [hc.clock_eq hc']
      | date | dateTime | timestamp => cases hform
  | @dateTime d c day clock hd hc =>
      generalize hwhole : day ++ 'T' :: clock = whole at h'
      cases h' with
      | dateTime hd' hc' =>
          obtain ⟨rfl, rfl⟩ := parts_eq (by decide) (by decide) hd hd' hc hc' hwhole
          rfl
      | date | time | timestamp => cases hform
  | @timestamp d c day clock hd hc =>
      generalize hwhole : day ++ ' ' :: clock = whole at h'
      cases h' with
      | timestamp hd' hc' =>
          obtain ⟨rfl, rfl⟩ := parts_eq (by decide) (by decide) hd hd' hc hc' hwhole
          rfl
      | date | time | dateTime => cases hform

end Moment

/-! ## The checks -/

/-- The accepted dates are the written days. -/
theorem checkDate_eq_ok_iff : checkDate text = .ok () ↔ ∃ d : Day, d.Written text := by
  rw [← isDate_iff, checkDate]
  split <;> simp_all

/-- The accepted times are the written times of day. -/
theorem checkTime_eq_ok_iff : checkTime text = .ok () ↔ ∃ c : Clock, c.Written text := by
  rw [← isTime_iff, checkTime]
  split <;> simp_all

/-- The accepted combinations are a written day and a written time with the separator
between them. -/
theorem checkDateTime_eq_ok_iff {separator : Char} (hdigit : separator.isDigit = false)
    (hdash : separator ≠ '-') :
    checkDateTime separator text = .ok () ↔ ∃ (d : Day) (c : Clock) (day clock : List Char),
      d.Written day ∧ c.Written clock ∧ text = day ++ separator :: clock := by
  unfold checkDateTime
  constructor
  · intro h
    split at h
    · cases h
    · next day clock hcut =>
      rw [check_bind_eq_ok_iff, checkDate_eq_ok_iff, checkTime_eq_ok_iff] at h
      obtain ⟨⟨d, hd⟩, c, hc⟩ := h
      exact ⟨d, c, day, clock, hd, hc, (Text.cutOnce?_eq_some_iff.mp hcut).1⟩
  · rintro ⟨d, c, day, clock, hd, hc, rfl⟩
    rw [Text.cutOnce?_append (hd.notMem hdigit hdash)]
    exact check_bind_eq_ok_iff.mpr
      ⟨checkDate_eq_ok_iff.mpr ⟨d, hd⟩, checkTime_eq_ok_iff.mpr ⟨c, hc⟩⟩

def Form.type : Form → DataType
  | .date => .date
  | .time => .time
  | .dateTime => .dateTime
  | .timestamp => .timestamp

/-- A text is checked as a literal of some kind exactly if it writes a moment of the kind. -/
theorem check_temporal_iff {s : String} {form : Form} :
    (LiteralValue.temporal s).check form.type = .ok () ↔
      ∃ m : Moment, m.form = form ∧ m.Written s.toList := by
  have hmap : ∀ {x : Except Fault Unit},
      x.mapError LiteralFault.temporal = .ok () ↔ x = .ok () := by
    intro x
    cases x <;> simp [Except.mapError]
  cases form with
  | date =>
      rw [Form.type, LiteralValue.check, hmap, checkDate_eq_ok_iff]
      generalize s.toList = text
      constructor
      · rintro ⟨d, hd⟩
        exact ⟨.date d, rfl, .date hd⟩
      · rintro ⟨m, hform, hm⟩
        cases hm with
        | date hd => exact ⟨_, hd⟩
        | time | dateTime | timestamp => cases hform
  | time =>
      rw [Form.type, LiteralValue.check, hmap, checkTime_eq_ok_iff]
      generalize s.toList = text
      constructor
      · rintro ⟨c, hc⟩
        exact ⟨.time c, rfl, .time hc⟩
      · rintro ⟨m, hform, hm⟩
        cases hm with
        | time hc => exact ⟨_, hc⟩
        | date | dateTime | timestamp => cases hform
  | dateTime =>
      rw [Form.type, LiteralValue.check, hmap, checkDateTime_eq_ok_iff (by decide) (by decide)]
      generalize s.toList = text
      constructor
      · rintro ⟨d, c, day, clock, hd, hc, rfl⟩
        exact ⟨.dateTime d c, rfl, .dateTime hd hc⟩
      · rintro ⟨m, hform, hm⟩
        cases hm with
        | dateTime hd hc => exact ⟨_, _, _, _, hd, hc, rfl⟩
        | date | time | timestamp => cases hform
  | timestamp =>
      rw [Form.type, LiteralValue.check, hmap, checkDateTime_eq_ok_iff (by decide) (by decide)]
      generalize s.toList = text
      constructor
      · rintro ⟨d, c, day, clock, hd, hc, rfl⟩
        exact ⟨.timestamp d c, rfl, .timestamp hd hc⟩
      · rintro ⟨m, hform, hm⟩
        cases hm with
        | timestamp hd hc => exact ⟨_, _, _, _, hd, hc, rfl⟩
        | date | time | dateTime => cases hform

end TypedSyntax.Temporal
