import TypedSyntax.Proofs.Literal.Range
import TypedSyntax.Proofs.Literal.Temporal
import TypedSyntax.Proofs.Workspace.Run
import TypedSyntax.Proofs.Tree.WellFormed

/-!
# Literals of trees

Which literals a tree accepts, and that every literal of a tree fits its type, whether it was
checked or not when it was built.
-/

namespace TypedSyntax

namespace LiteralValue

variable {v : LiteralValue} {type : DataType}

/-- The literals of a type: a value of the type's form, an integer in its range, or the text of a
moment. -/
inductive Fits : LiteralValue → DataType → Prop
  | bool {b} : Fits (.bool b) .boolean
  | int {w signed width} : InRange signed width w.toInt → Fits (.int w) (.int signed width)
  | uint {w signed width} : InRange signed width w.toNat → Fits (.uint w) (.int signed width)
  | float {x width} : Fits (.float x) (.float width)
  | complex {x y width} : Fits (.complex x y) (.complex width)
  | string {s} : Fits (.text s) .string
  | utf8String {s} : Fits (.text s) .utf8String
  | utf8Char {c} : Fits (.char c) .utf8Char
  | temporal {s} {m : Temporal.Moment} : m.Written s.toList → Fits (.temporal s) m.form.type

theorem exists_form {s : String} (h : (temporal s).check type = .ok ()) :
    ∃ form : Temporal.Form, form.type = type := by
  cases type with
  | date => exact ⟨.date, rfl⟩
  | time => exact ⟨.time, rfl⟩
  | dateTime => exact ⟨.dateTime, rfl⟩
  | timestamp => exact ⟨.timestamp, rfl⟩
  | _ => cases h

theorem fits_of_check (h : v.check type = .ok ()) : v.Fits type := by
  cases v with
  | int w =>
      cases type with
      | int signed width =>
          rw [check] at h
          split at h
          · next hfits => exact .int (intFits_iff.mp hfits)
          · cases h
      | _ => cases h
  | uint w =>
      cases type with
      | int signed width =>
          rw [check] at h
          split at h
          · next hfits => exact .uint (uintFits_iff.mp hfits)
          · cases h
      | _ => cases h
  | temporal s =>
      obtain ⟨form, rfl⟩ := exists_form h
      obtain ⟨m, rfl, hwritten⟩ := Temporal.check_temporal_iff.mp h
      exact .temporal hwritten
  | bool | float | complex | text | char =>
      cases type <;> first | constructor | cases h

theorem check_eq_ok_iff : v.check type = .ok () ↔ v.Fits type := by
  constructor
  · exact fits_of_check
  · intro h
    cases h with
    | bool | float | complex | string | utf8String | utf8Char => rfl
    | int h => exact if_pos (intFits_iff.mpr h)
    | uint h => exact if_pos (uintFits_iff.mpr h)
    | temporal hwritten => exact Temporal.check_temporal_iff.mpr ⟨_, rfl, hwritten⟩

end LiteralValue

/-- What needs no check passes it. -/
theorem PlainLiteral.check_value (literal : PlainLiteral) :
    literal.value.check literal.type = .ok () := by
  rw [LiteralValue.check_eq_ok_iff]
  cases literal with
  | boolean => exact .bool
  | signed width w =>
      apply LiteralValue.Fits.int
      rw [BitVec.toInt_signExtend_of_le width.bits_le]
      exact ⟨BitVec.le_toInt w, Int.le_sub_one_of_lt BitVec.toInt_lt⟩
  | unsigned width w =>
      apply LiteralValue.Fits.uint
      rw [BitVec.toNat_setWidth_of_le width.bits_le]
      have hlt : (w.toNat : Int) < 2 ^ width.bits := by exact_mod_cast w.isLt
      exact ⟨Int.natCast_nonneg _, Int.le_sub_one_of_lt hlt⟩
  | float32 | float64 => exact .float
  | string => exact .string
  | utf8String => exact .utf8String
  | utf8Char => exact .utf8Char

/-- The value of a literal passes the check of its type. -/
def Payload.Checked {α : Type} (p : Payload α) : Prop :=
  ∀ v t, p = .literal v t → v.check t = .ok ()

namespace Tree

variable {tree : Tree} {id : NodeId} {v : LiteralValue} {t : DataType} {tag : Nat}

/-- A draft of which a tree builds a node. -/
def Accepts (tree : Tree) (tag : Nat) (draft : Draft) : Prop :=
  ∃ id, (tree.build tag draft).2 = .ok id

theorem accepts_iff {draft : Draft} :
    tree.Accepts tag draft ↔ ∃ payload, tree.admitted draft = .ok payload := by
  cases h : tree.admitted draft with
  | error e => simp [Accepts, build_of_refused h]
  | ok payload => simp [Accepts, build_of_admitted h]

theorem accepts_literal_iff : tree.Accepts tag (.literal v t) ↔ v.Fits t := by
  rw [accepts_iff, ← LiteralValue.check_eq_ok_iff]
  constructor
  · rintro ⟨payload, h⟩
    have hpayload := (admitted_eq_ok_iff.mp h).1
    rw [payload?] at hpayload
    split at hpayload
    · next hcheck => exact hcheck
    · cases hpayload
  · intro h
    refine ⟨.literal v t, admitted_eq_ok_iff.mpr ⟨?_, by simp [Payload.children], List.nodup_nil⟩⟩
    rw [payload?, h]

/-- A literal is built of one whose value needs no check, or after a check. -/
theorem literal_of_payload? {draft : Draft} (h : tree.payload? draft = .ok (.literal v t)) :
    (∃ literal, draft = .plain literal ∧ v = literal.value ∧ t = literal.type) ∨
      (draft = .literal v t ∧ v.check t = .ok ()) := by
  cases draft with
  | plain literal =>
      obtain ⟨rfl, rfl⟩ := Payload.literal.inj (Except.ok.inj h)
      exact .inl ⟨literal, rfl, rfl, rfl⟩
  | literal value type =>
      rw [payload?] at h
      split at h
      · next hcheck =>
        obtain ⟨rfl, rfl⟩ := Payload.literal.inj (Except.ok.inj h)
        exact .inr ⟨rfl, hcheck⟩
      · cases h
  | «variable» | breaking | continuing => cases h
  | call callee arguments =>
      simp only [payload?, callPayload, bind_eq_ok_iff] at h
      obtain ⟨_, -, _, -, h⟩ := h
      split at h
      · cases h
      · simp only [bind_eq_ok_iff, pure_eq_ok_iff, reduceCtorEq, and_false, exists_false] at h
  | rangeLoop counter start stop step body =>
      simp only [payload?, rangePayload, bind_eq_ok_iff] at h
      obtain ⟨_, -, h⟩ := h
      split at h
      · split at h
        · cases h
        · simp only [bind_eq_ok_iff, pure_eq_ok_iff, reduceCtorEq, and_false, exists_false] at h
      · cases h
  | unary | binary | comprehension =>
      rw [payload?] at h
      split at h
      · cases h
      · simp only [bind_eq_ok_iff, pure_eq_ok_iff, reduceCtorEq, and_false, exists_false] at h
  | _ =>
      simp only [payload?, bind_eq_ok_iff, pure_eq_ok_iff, reduceCtorEq, and_false,
        exists_false] at h

theorem checked_of_payload? {draft : Draft} {payload : Payload NodeId}
    (h : tree.payload? draft = .ok payload) : payload.Checked := by
  rintro v t rfl
  rcases literal_of_payload? h with ⟨literal, -, rfl, rfl⟩ | ⟨-, hcheck⟩
  · exact literal.check_value
  · exact hcheck

theorem checked_addStatement {p : Payload NodeId} {child : NodeId} (h : p.Checked) :
    (p.addStatement child).Checked := by
  intro v t he
  cases p with
  | literal => exact h v t he
  | _ => cases he

/-- After every run the values of literals pass the checks of their types. -/
theorem checked_run (actions : List Workspace.Action) (i : Nat) {p : Payload NodeId}
    (hp : ((Workspace.run actions).tree i).payload id = .ok p) : p.Checked := by
  revert id p
  refine Workspace.forall_tree_run
    (P := fun tree => ∀ {id p}, tree.payload id = .ok p → p.Checked) ?_ ?_ ?_ ?_ ?_ actions i
  · intro i id p hp
    obtain ⟨node, hnode, -⟩ := payload_eq_ok_iff.mp hp
    exact (Nat.not_lt_zero _ (has_of_node hnode).2).elim
  · intro t t' hid hnodes ht id p hp
    have hsame : t'.payload id = t.payload id := by rw [payload, payload, node, node, hid, hnodes]
    exact ht (hsame.symm.trans hp)
  · intro t t' draft payload tag hpayload hgrown ht id p hp
    by_cases hid : id = t.nextId
    · subst hid
      rw [Tree.payload, hgrown.added] at hp
      obtain rfl := Except.ok.inj hp
      exact checked_of_payload? hpayload
    · rw [hgrown.payload_eq hid] at hp
      exact ht hp
  · intro t t' block child hlong ht id p hp
    rw [hlong.payload_eq] at hp
    split at hp
    · obtain ⟨old, hold, rfl⟩ := map_eq_ok_iff.mp hp
      exact checked_addStatement (ht hold)
    · exact ht hp
  · intro t t' n comment hcommented ht id p hp
    rw [hcommented.payload_eq] at hp
    exact ht hp

/-- Words are literals of the integer types whose range they lie in, and no operation of this check
overflows. Every literal of a tree passes the check and fits its type, also if it was built
without one. -/
theorem literal_in_range :
    (∀ (tree : Tree) (tag : Nat) (w : BitVec 128) (t : DataType),
      (tree.Accepts tag (.literal (.int w) t) ↔
        ∃ signed width, t = .int signed width ∧ InRange signed width w.toInt) ∧
      (tree.Accepts tag (.literal (.uint w) t) ↔
        ∃ signed width, t = .int signed width ∧ InRange signed width w.toNat)) ∧
    (∀ (w : BitVec 128) (signed : Bool) (width : IntWidth),
      LiteralValue.intFits? w signed width = some (LiteralValue.intFits w signed width) ∧
        LiteralValue.uintFits? w signed width = some (LiteralValue.uintFits w signed width)) ∧
    ∀ (actions : List Workspace.Action) (i : Nat) (id : NodeId) (v : LiteralValue) (t : DataType),
      ((Workspace.run actions).tree i).payload id = .ok (.literal v t) →
        v.check t = .ok () ∧ v.Fits t := by
  refine ⟨fun tree tag w t => ⟨?_, ?_⟩, fun w signed width => ?_, fun actions i id v t h => ?_⟩
  · rw [accepts_literal_iff]
    constructor
    · intro h
      cases h with
      | int hrange => exact ⟨_, _, rfl, hrange⟩
    · rintro ⟨signed, width, rfl, hrange⟩
      exact .int hrange
  · rw [accepts_literal_iff]
    constructor
    · intro h
      cases h with
      | uint hrange => exact ⟨_, _, rfl, hrange⟩
    · rintro ⟨signed, width, rfl, hrange⟩
      exact .uint hrange
  · exact ⟨LiteralValue.intFits?_eq, LiteralValue.uintFits?_eq⟩
  · have hcheck := checked_run actions i h v t rfl
    exact ⟨hcheck, LiteralValue.check_eq_ok_iff.mp hcheck⟩

/-- The least word of 64 bits, built without a check. -/
theorem literal_in_range_least :
    let actions : List Workspace.Action :=
      [.newTree, .build 0 (.plain (.signed .w64 (-9223372036854775808#64)))]
    let v : LiteralValue := .int (-9223372036854775808#128)
    ((Workspace.run actions).tree 0).payload ⟨0, 0⟩ = .ok (.literal v (.int true .w64)) ∧
      v.check (.int true .w64) = .ok () ∧ v.Fits (.int true .w64) := by
  intro actions v
  have hpayload : ((Workspace.run actions).tree 0).payload ⟨0, 0⟩ =
      .ok (.literal v (.int true .w64)) := by rfl
  exact ⟨hpayload, literal_in_range.2.2 actions 0 ⟨0, 0⟩ v (.int true .w64) hpayload⟩

end Tree

/-! ## Temporal literals -/

namespace Temporal

/-- The draft of a literal of some kind. -/
def Form.draft : Form → String → Draft
  | .date => .date
  | .time => .time
  | .dateTime => .dateTime
  | .timestamp => .timestamp

theorem accepts_draft_iff {tree : Tree} {tag : Nat} {form : Form} {s : String} :
    tree.Accepts tag (form.draft s) ↔ ∃ m : Moment, m.form = form ∧ m.Written s.toList := by
  have hdraft : form.draft s = .literal (.temporal s) form.type := by
    cases form <;> rfl
  rw [hdraft, Tree.accepts_literal_iff, ← LiteralValue.check_eq_ok_iff, check_temporal_iff]

/-- A text is accepted as a literal of a kind exactly if it writes a moment of the kind. Every
moment has exactly one text; a text writes at most one moment, and is of at most one kind. -/
theorem temporal_grammar :
    (∀ (tree : Tree) (tag : Nat) (form : Form) (s : String),
      tree.Accepts tag (form.draft s) ↔ ∃ m : Moment, m.form = form ∧ m.Written s.toList) ∧
    (∀ (tree : Tree) (tag : Nat) (m : Moment),
      ∃! s : String, tree.Accepts tag (m.form.draft s) ∧ m.Written s.toList) ∧
    (∀ s : String, {m : Moment | m.Written s.toList}.Subsingleton) ∧
    ∀ s : String,
      {form : Form | ∃ tree tag, Tree.Accepts tree tag (form.draft s)}.Subsingleton := by
  refine ⟨fun tree tag form s => accepts_draft_iff, fun tree tag m => ?_, fun s m hm m' hm' => ?_,
    fun s form hform form' hform' => ?_⟩
  · obtain ⟨text, htext⟩ := m.exists_written
    have hwritten : m.Written (String.ofList text).toList := by rwa [String.toList_ofList]
    refine ⟨String.ofList text, ⟨accepts_draft_iff.mpr ⟨m, rfl, hwritten⟩, hwritten⟩, ?_⟩
    rintro s ⟨-, hs⟩
    exact String.toList_injective (hs.eq hwritten)
  · exact hm.moment_eq hm'
  · obtain ⟨_, _, h⟩ := hform
    obtain ⟨_, _, h'⟩ := hform'
    obtain ⟨m, rfl, hm⟩ := accepts_draft_iff.mp h
    obtain ⟨m', rfl, hm'⟩ := accepts_draft_iff.mp h'
    exact congrArg Moment.form (hm.moment_eq hm')

end Temporal

end TypedSyntax
