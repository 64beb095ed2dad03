import TypedSyntax.Proofs.Export.Label
import TypedSyntax.Proofs.Export.Wrapper

/-!
# Contents of nodes

A full export is a wrapper. Its content erases to the simplified content, and
its further wrappers are those of the children, one after the other.
-/

namespace TypedSyntax

namespace LiteralValue

theorem erase_integerDatum (i : Int) : (integerDatum i).erase = integerDatum i := by
  unfold integerDatum
  split <;> rfl

theorem wrappers_integerDatum (i : Int) : (integerDatum i).wrappers = [] := by
  unfold integerDatum
  split <;> rfl

theorem erase_floatDatum (x : Double) : (floatDatum x).erase = floatDatum x := by
  unfold floatDatum
  split <;> rfl

theorem wrappers_floatDatum (x : Double) : (floatDatum x).wrappers = [] := by
  unfold floatDatum
  split <;> rfl

/-- A literal value holds no wrapper. -/
theorem erase_toDatum (v : LiteralValue) : v.toDatum.erase = v.toDatum := by
  cases v with
  | int | uint => exact erase_integerDatum _
  | float => exact erase_floatDatum _
  | complex real imag =>
      rw [toDatum, Datum.erase_map_cons_cons, List.map_cons, List.map_cons, List.map_nil,
        erase_floatDatum, erase_floatDatum]
  | bool | text | char | temporal => rfl

theorem wrappers_toDatum (v : LiteralValue) : v.toDatum.wrappers = [] := by
  cases v with
  | int | uint => exact wrappers_integerDatum _
  | float => exact wrappers_floatDatum _
  | complex real imag =>
      rw [toDatum, Datum.wrappers_map_cons_cons, List.flatMap_cons, List.flatMap_cons,
        List.flatMap_nil, wrappers_floatDatum, wrappers_floatDatum]
      rfl
  | bool | text | char | temporal => rfl

end LiteralValue

namespace Term

/-- The wrapper of a node with a given content. -/
def wrapperOf (t : Term) (content : Datum) : Wrapper :=
  ⟨numberedKey t.label t.info.tag, content, t.metadata⟩

/-- The wrapper of a node. -/
def wrapper (t : Term) : Wrapper :=
  t.wrapperOf (t.content .full)

theorem exported_full (t : Term) (content : Datum) :
    t.exported .full content = (t.wrapperOf content).toDatum := rfl

@[simp]
theorem erase_exported (t : Term) (content : Datum) :
    (t.exported .full content).erase = t.exported .simplified content.erase := by
  rw [exported_full, Datum.erase_wrapper]
  exact congrArg (Datum.single · _) (cutKey_numberedKey _ _)

/-- Metadata holds no wrapper. -/
theorem wrappers_metadata (t : Term) : t.metadata.wrappers = [] := by
  have hloc : (locationDatum t.info.loc).wrappers = [] := by
    unfold locationDatum
    split <;> rfl
  unfold metadata
  cases t.payload.valueType? <;> simp [hloc, Datum.wrappers]

@[simp]
theorem wrappers_exported (t : Term) (content : Datum) :
    (t.exported .full content).wrappers = t.wrapperOf content :: content.wrappers := by
  rw [exported_full, Datum.wrappers_wrapper, wrapperOf, wrappers_metadata, List.append_nil]

/-- Content of several entries, as a prototype has it. -/
def Entries (content : Datum) : Prop :=
  ∃ e e' entries, content = .map (e :: e' :: entries)

/-- A function that the payload is has a head whose content is several
entries. -/
def Headed (payload : Payload (Term × Datum)) : Prop :=
  ∀ head body, payload = .function head body → Entries head.2

/-- The full content without metadata is the simplified content. -/
theorem erase_contentFrom {payload : Payload (Term × Datum)} (h : Headed payload) :
    (contentFrom .full payload).erase =
      contentFrom .simplified (payload.map fun c => (c.1, c.2.erase)) := by
  cases payload with
  | literal value => exact LiteralValue.erase_toDatum value
  | declaration _ child | argument _ child | returning child =>
      cases child with
      | none => rfl
      | some c => exact erase_exported _ _
  | function head body =>
      obtain ⟨t, content⟩ := head
      obtain ⟨e, e', entries, rfl⟩ := h _ _ rfl
      simp [contentFrom, contentOf, Payload.map]
  | conditional _ _ alternative => cases alternative <;> simp [contentFrom, contentOf, Payload.map]
  | rangeLoop _ _ _ step => cases step <;> simp [contentFrom, contentOf, Payload.map]
  | _ => simp [contentFrom, contentOf, Payload.map, Function.comp_def]

/-- The wrappers in the content of a node are those of its children, in the
order of the slots. -/
theorem wrappers_contentFrom {payload : Payload (Term × Datum)} (h : payload.kind ≠ .function) :
    (contentFrom .full payload).wrappers =
      payload.children.flatMap fun c => (c.1.exported .full c.2).wrappers := by
  cases payload with
  | literal value => exact LiteralValue.wrappers_toDatum value
  | function => exact (h rfl).elim
  | declaration _ child | argument _ child | returning child =>
      cases child with
      | none => rfl
      | some c => exact (List.flatMap_singleton _ _).symm
  | conditional _ _ alternative =>
      cases alternative <;> simp [contentFrom, contentOf, Payload.map, Payload.children]
  | rangeLoop _ _ _ step =>
      cases step <;> simp [contentFrom, contentOf, Payload.map, Payload.children]
  | _ =>
      simp [contentFrom, contentOf, Payload.map, Payload.children, List.flatMap_map,
        List.flatMap_assoc]

/-- A function shows the wrappers in the content of its head, but not the
wrapper of the head. -/
theorem wrappers_contentFrom_function {head body : Term × Datum} (h : Entries head.2) :
    (contentFrom .full (.function head body)).wrappers =
      head.2.wrappers ++ (body.1.exported .full body.2).wrappers := by
  obtain ⟨t, content⟩ := head
  obtain ⟨e, e', entries, rfl⟩ := h
  simp [contentFrom, contentOf, Payload.map]

end Term

end TypedSyntax
