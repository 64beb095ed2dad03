import Mathlib.Logic.Function.Basic
import TypedSyntax.Proofs.Export.Subtree
import TypedSyntax.Proofs.Tree.Renaming

/-!
# Mirrored trees

A tree mirrors another one if it has the same nodes under other names. Checks
read kinds, types and links of nodes only, so that they have the same outcome
in both trees.
-/

namespace TypedSyntax

theorem Payload.map_addStatement {α β : Type} (f : α → β) (p : Payload α) (child : α) :
    (p.addStatement child).map f = (p.map f).addStatement (f child) := by
  cases p <;> simp [addStatement, map]

namespace Tree

open Relation

/-- The second tree has the nodes of the first under other names, with the same
payloads and parents up to names. -/
structure Mirrors (tree mirror : Tree) (f : NodeId → NodeId) : Prop where
  linked : Linked tree
  linked_mirror : Linked mirror
  injective : ∀ {n m}, tree.Has n → tree.Has m → f n = f m → n = m
  node_eq : ∀ {n node}, tree.node n = .ok node → ∃ node', mirror.node (f n) = .ok node' ∧
    node'.payload = node.payload.map f ∧ node'.parent = node.parent.map f

theorem Linked.has_of_slot {tree : Tree} (ht : Linked tree) {n : NodeId} {p : Payload NodeId}
    (hp : tree.payload n = .ok p) : ∀ c ∈ p.children, tree.Has c := by
  obtain ⟨node, hnode, rfl⟩ := payload_eq_ok_iff.mp hp
  exact ht.present (slots_iff.mpr ⟨node, hnode, rfl⟩)

/-- The arguments that a callee declares are nodes of its tree. -/
theorem Linked.has_of_calleePrototype {tree : Tree} (ht : Linked tree) {n : NodeId}
    {signature : Signature} {declared : List NodeId}
    (h : tree.calleePrototype n = .ok (signature, declared)) : ∀ a ∈ declared, tree.Has a := by
  have hprototype : ∀ {m p}, tree.payload m = .ok p → p = .prototype signature declared →
      ∀ a ∈ declared, tree.Has a := by
    rintro m _ hp rfl
    exact ht.has_of_slot hp
  simp only [calleePrototype, bind_eq_ok_iff, look_eq_ok_iff] at h
  obtain ⟨p, hp, h⟩ := h
  split at h
  · cases h
    exact hprototype hp rfl
  · simp only [bind_eq_ok_iff, look_eq_ok_iff] at h
    obtain ⟨q, hq, h⟩ := h
    split at h
    · cases h
      exact hprototype hq rfl
    · cases h
  · cases h

section Mirrors

variable {tree mirror : Tree} {f : NodeId → NodeId} {n : NodeId} {ids : List NodeId}
  (h : tree.Mirrors mirror f)
include h

theorem Mirrors.has (hn : tree.Has n) : mirror.Has (f n) := by
  obtain ⟨node, hnode⟩ := has_iff.mp hn
  obtain ⟨node', hnode', -⟩ := h.node_eq hnode
  exact has_of_node hnode'

/-- Different nodes have different names. -/
theorem Mirrors.mem_map_iff (hids : ∀ n ∈ ids, tree.Has n) (hn : tree.Has n) :
    f n ∈ ids.map f ↔ n ∈ ids := by
  constructor
  · intro hmem
    obtain ⟨m, hm, he⟩ := List.mem_map.mp hmem
    exact h.injective (hids m hm) hn he ▸ hm
  · exact List.mem_map_of_mem

/-- Payloads are the same up to names. -/
theorem Mirrors.payload_eq (hn : tree.Has n) :
    mirror.payload (f n) = (tree.payload n).map (Payload.map f) := by
  obtain ⟨node, hnode⟩ := has_iff.mp hn
  obtain ⟨node', hnode', hpayload, -⟩ := h.node_eq hnode
  simp only [payload, hnode, hnode', Except.map, hpayload]

theorem Mirrors.kind_eq (hn : tree.Has n) : mirror.kind (f n) = tree.kind n := by
  obtain ⟨node, hnode⟩ := has_iff.mp hn
  obtain ⟨node', hnode', hpayload, -⟩ := h.node_eq hnode
  simp only [kind, hnode, hnode', Except.map, Node.kind, hpayload, Payload.kind_map]

/-- Types do not depend on names. -/
theorem Mirrors.expressionType_eq (hn : tree.Has n) :
    mirror.expressionType (f n) = tree.expressionType n := by
  obtain ⟨node, hnode⟩ := has_iff.mp hn
  obtain ⟨node', hnode', hpayload, -⟩ := h.node_eq hnode
  simp only [expressionType, hnode, hnode', look, ok_bind, Node.kind, hpayload, Payload.kind_map,
    Payload.valueType?_map]

theorem Mirrors.expressionTypes_eq (hids : ∀ n ∈ ids, tree.Has n) :
    mirror.expressionTypes (ids.map f) = tree.expressionTypes ids :=
  mapM_map_congr fun n hn => h.expressionType_eq (hids n hn)

theorem Mirrors.expectKind_eq (slot : Slot) (kind : Kind) (hn : tree.Has n) :
    mirror.expectKind slot kind (f n) = tree.expectKind slot kind n := by
  rw [expectKind, expectKind, h.kind_eq hn]

theorem Mirrors.expectKinds_eq (slot : Slot) (kind : Kind) (hids : ∀ n ∈ ids, tree.Has n) :
    (ids.map f).forM (mirror.expectKind slot kind) = ids.forM (tree.expectKind slot kind) :=
  forM_map_congr fun n hn => h.expectKind_eq slot kind (hids n hn)

theorem Mirrors.expectCondition_eq (hn : tree.Has n) :
    mirror.expectCondition (f n) = tree.expectCondition n := by
  rw [expectCondition, expectCondition, h.expressionType_eq hn]

theorem Mirrors.expectInteger_eq (hn : tree.Has n) :
    mirror.expectInteger (f n) = tree.expectInteger n := by
  rw [expectInteger, expectInteger, h.expressionType_eq hn]

theorem Mirrors.expectStatements_eq (hids : ∀ n ∈ ids, tree.Has n) :
    (ids.map f).forM mirror.expectStatement = ids.forM tree.expectStatement :=
  forM_map_congr fun n hn => by rw [expectStatement, expectStatement, h.kind_eq (hids n hn)]

theorem Mirrors.expectInitial_eq (name : String) (declared : DataType) {value : Option NodeId}
    (hvalue : ∀ n ∈ value.toList, tree.Has n) :
    mirror.expectInitial name declared (value.map f) = tree.expectInitial name declared value := by
  cases value with
  | none => rfl
  | some value =>
      rw [Option.map_some, expectInitial, expectInitial,
        h.expressionType_eq (hvalue value (by simp))]

theorem Mirrors.expectTarget_eq (element : DataType) (hn : tree.Has n) :
    mirror.expectTarget (f n) element = tree.expectTarget n element := by
  obtain ⟨node, hnode⟩ := has_iff.mp hn
  have hpayload : tree.payload n = .ok node.payload := payload_eq_ok_iff.mpr ⟨node, hnode, rfl⟩
  simp only [expectTarget, h.payload_eq hn, hpayload, Except.map, look, ok_bind]
  cases node.payload with
  | declaration declared value => cases value <;> rfl
  | _ => rfl

/-- The header of a loop is checked alike. -/
theorem Mirrors.expectIteration_eq {target iterable : NodeId} (htarget : tree.Has target)
    (hiterable : tree.Has iterable) (hids : ∀ n ∈ ids, tree.Has n) :
    mirror.expectIteration (f target) (f iterable) (ids.map f) =
      tree.expectIteration target iterable ids := by
  have hconditions : (ids.map f).forM mirror.expectCondition = ids.forM tree.expectCondition :=
    forM_map_congr fun n hn => h.expectCondition_eq (hids n hn)
  simp only [expectIteration, h.expressionType_eq hiterable, h.expectTarget_eq _ htarget,
    hconditions]

theorem Mirrors.parameter?_eq (hn : tree.Has n) :
    mirror.parameter? (f n) = tree.parameter? n := by
  obtain ⟨node, hnode⟩ := has_iff.mp hn
  have hpayload : tree.payload n = .ok node.payload := payload_eq_ok_iff.mpr ⟨node, hnode, rfl⟩
  simp only [parameter?, h.payload_eq hn, hpayload, Except.map, look, ok_bind]
  cases node.payload with
  | argument parameter default => cases default <;> rfl
  | _ => rfl

/-- The prototype of a callee is found under its name. -/
theorem Mirrors.calleePrototype_eq (hn : tree.Has n) :
    mirror.calleePrototype (f n) =
      (tree.calleePrototype n).map fun found => (found.1, found.2.map f) := by
  obtain ⟨node, hnode⟩ := has_iff.mp hn
  have hpayload : tree.payload n = .ok node.payload := payload_eq_ok_iff.mpr ⟨node, hnode, rfl⟩
  simp only [calleePrototype, h.payload_eq hn, hpayload, Except.map, look, ok_bind]
  cases hp : node.payload with
  | function head body =>
      have hhead : tree.Has head :=
        h.linked.has_of_slot hpayload head (by simp [hp, Payload.children])
      obtain ⟨proto, hproto⟩ := has_iff.mp hhead
      have hpayload : tree.payload head = .ok proto.payload :=
        payload_eq_ok_iff.mpr ⟨proto, hproto, rfl⟩
      simp only [Payload.map, h.payload_eq hhead, hpayload, Except.map, ok_bind]
      cases proto.payload <;> rfl
  | _ => rfl

/-- A call is checked alike. -/
theorem Mirrors.callPayload_eq {callee : NodeId} (hcallee : tree.Has callee)
    (hids : ∀ n ∈ ids, tree.Has n) :
    mirror.callPayload (f callee) (ids.map f) =
      (tree.callPayload callee ids).map (Payload.map f) := by
  cases hfound : tree.calleePrototype callee with
  | error e =>
      simp only [callPayload, h.calleePrototype_eq hcallee, hfound]
      rfl
  | ok found =>
      obtain ⟨signature, declared⟩ := found
      have hdeclared := h.linked.has_of_calleePrototype hfound
      have hparameters : (declared.map f).mapM mirror.parameter? = declared.mapM tree.parameter? :=
        mapM_map_congr fun n hn => h.parameter?_eq (hdeclared n hn)
      have harguments : ∀ parameters, mirror.expectArguments parameters (ids.map f) =
          tree.expectArguments parameters ids := by
        intro parameters
        rw [expectArguments, expectArguments, List.zip_map_right]
        apply forM_map_congr
        intro pair hpair
        have hid := hids pair.2 (List.of_mem_zip hpair).2
        obtain ⟨⟨parameter, hasDefault⟩, argument⟩ := pair
        simp only [Prod.map, h.expressionType_eq hid]
        rfl
      simp only [callPayload, h.calleePrototype_eq hcallee, hfound, Except.map, ok_bind,
        hparameters, harguments, List.length_map]
      cases declared.mapM tree.parameter? with
      | error e => rfl
      | ok parameters =>
          rw [ok_bind, ok_bind]
          split
          · rfl
          · change _ = Except.map (Payload.map f) _
            rw [map_bind]
            rfl

/-- A counted loop is checked alike. -/
theorem Mirrors.rangePayload_eq {counter start stop body : NodeId} {step : Option NodeId}
    (hids : ∀ n ∈ counter :: start :: stop :: (step.toList ++ [body]), tree.Has n) :
    mirror.rangePayload (f counter) (f start) (f stop) (step.map f) (f body) =
      (tree.rangePayload counter start stop step body).map (Payload.map f) := by
  simp only [List.forall_mem_cons, List.forall_mem_append, List.not_mem_nil,
    false_imp_iff, implies_true, and_true] at hids
  obtain ⟨hcounter, hstart, hstop, hstep, hbody⟩ := hids
  obtain ⟨node, hnode⟩ := has_iff.mp hcounter
  have hpayload : tree.payload counter = .ok node.payload :=
    payload_eq_ok_iff.mpr ⟨node, hnode, rfl⟩
  have hsteps : (step.toList.map f).mapM mirror.expectInteger =
      step.toList.mapM tree.expectInteger :=
    mapM_map_congr fun n hn => h.expectInteger_eq (hstep n hn)
  simp only [rangePayload, h.payload_eq hcounter, hpayload, Except.map, look, ok_bind,
    Option.toList_map, h.expectInteger_eq hstart, h.expectInteger_eq hstop, hsteps,
    h.expectKind_eq _ _ hbody]
  cases node.payload with
  | declaration declared value =>
      cases value with
      | none =>
          simp only [Payload.map, Option.map_none]
          split
          · rfl
          · change _ = Except.map (Payload.map f) _
            simp only [map_bind]
            rfl
      | some value => rfl
  | _ => rfl

/-- A draft has the same outcome in both trees. -/
theorem Mirrors.payload?_eq {draft : Draft} (hids : ∀ n ∈ draft.references, tree.Has n) :
    mirror.payload? (draft.rename f) = (tree.payload? draft).map (Payload.map f) := by
  cases draft with
  | plain | «variable» | breaking | continuing => rfl
  | literal value type =>
      simp only [Draft.rename, payload?]
      cases value.check type <;> rfl
  | mapping entries =>
      simp only [Draft.rename, payload?, map_bind]
      refine congrArg₂ _ (mapM_map_congr fun entry hentry => ?_) rfl
      have hkey := hids entry.1 (List.mem_flatMap.mpr ⟨entry, hentry, by simp⟩)
      have hvalue := hids entry.2 (List.mem_flatMap.mpr ⟨entry, hentry, by simp⟩)
      simp only [h.expressionType_eq hkey, h.expressionType_eq hvalue]
  | unary token operand =>
      simp only [Draft.rename, payload?, h.expressionType_eq (hids operand List.mem_cons_self)]
      cases UnaryOperator.ofToken? token with
      | none => rfl
      | some op =>
          simp only [map_bind]
          rfl
  | binary token lhs rhs =>
      obtain ⟨hlhs, hrhs⟩ := List.forall_mem_cons.mp hids
      simp only [Draft.rename, payload?, h.expressionType_eq hlhs,
        h.expressionType_eq (hrhs rhs List.mem_cons_self)]
      cases BinaryOperator.ofToken? token with
      | none => rfl
      | some op =>
          simp only [map_bind]
          rfl
  | call callee arguments =>
      obtain ⟨hcallee, harguments⟩ := List.forall_mem_cons.mp hids
      exact h.callPayload_eq hcallee harguments
  | returning value =>
      have hvalue : ((value.map f).toList.forM fun n => do let _ ← mirror.expressionType n) =
          (value.toList.forM fun n => do let _ ← tree.expressionType n) := by
        rw [Option.toList_map]
        exact forM_map_congr fun n hn => by rw [h.expressionType_eq (hids n hn)]
      simp only [Draft.rename, payload?, hvalue, map_bind]
      rfl
  | rangeLoop counter start stop step body => exact h.rangePayload_eq hids
  | comprehension kind element generators =>
      obtain ⟨helement, hgenerators⟩ := List.forall_mem_cons.mp hids
      simp only [Draft.rename, payload?, List.isEmpty_map, h.expressionType_eq helement,
        h.expectKinds_eq _ _ hgenerators]
      split
      · rfl
      · simp only [map_bind]
        rfl
  | classDecl header bases decorators =>
      have hexpressions := h.expressionTypes_eq hids
      rw [Draft.references, List.map_append] at hexpressions
      simp only [Draft.rename, payload?, hexpressions, map_bind]
      rfl
  | classDef header bases decorators attributes methods =>
      simp only [Draft.references, List.forall_mem_append] at hids
      obtain ⟨⟨hexpressions, hattributes⟩, hmethods⟩ := hids
      have htypes := h.expressionTypes_eq (List.forall_mem_append.mpr hexpressions)
      rw [List.map_append] at htypes
      simp only [Draft.rename, payload?, htypes, h.expectKinds_eq _ _ hattributes,
        h.expectKinds_eq _ _ hmethods, map_bind]
      rfl
  | _ =>
      simp only [Draft.references, List.forall_mem_cons, List.forall_mem_append, List.not_mem_nil,
        false_imp_iff, implies_true, and_true] at hids
      simp +contextual only [Draft.rename, payload?, map_bind, h.expressionType_eq,
        h.expressionTypes_eq, h.expectStatements_eq, h.expectInitial_eq, h.expectKinds_eq,
        h.expectKind_eq, h.expectCondition_eq, h.expectIteration_eq, hids, implies_true,
        Option.toList_map]
      rfl

/-! ## Children and ancestors -/

theorem Mirrors.expectFree_eq {earlier : List NodeId} (hearlier : ∀ n ∈ earlier, tree.Has n)
    (hn : tree.Has n) :
    mirror.expectFree (earlier.map f) (f n) = tree.expectFree earlier n := by
  obtain ⟨node, hnode⟩ := has_iff.mp hn
  obtain ⟨node', hnode', hpayload, hparent⟩ := h.node_eq hnode
  simp only [expectFree, hnode, hnode', look, ok_bind, hparent, Option.isSome_map,
    h.mem_map_iff hearlier hn, Node.kind, hpayload, Payload.kind_map]

/-- Children are free under both names or under neither. -/
theorem Mirrors.expectAllFree_eq {earlier : List NodeId} (hearlier : ∀ n ∈ earlier, tree.Has n)
    (hids : ∀ n ∈ ids, tree.Has n) :
    mirror.expectAllFree (earlier.map f) (ids.map f) = tree.expectAllFree earlier ids := by
  induction ids generalizing earlier with
  | nil => rfl
  | cons n ids ih =>
      obtain ⟨hn, hids⟩ := List.forall_mem_cons.mp hids
      have hrest := ih (List.forall_mem_cons.mpr ⟨hn, hearlier⟩) hids
      rw [List.map_cons] at hrest
      rw [List.map_cons, expectAllFree, expectAllFree, h.expectFree_eq hearlier hn, hrest]

/-- Both trees admit the same drafts up to names. -/
theorem Mirrors.admitted_eq {draft : Draft} (hids : ∀ n ∈ draft.references, tree.Has n) :
    mirror.admitted (draft.rename f) = (tree.admitted draft).map (Payload.map f) := by
  rw [admitted, admitted, h.payload?_eq hids]
  cases hpayload : tree.payload? draft with
  | error e => rfl
  | ok payload =>
      have hchildren : ∀ n ∈ payload.children, tree.Has n :=
        fun n hn => hids n (children_subset_references hpayload hn)
      have hfree := h.expectAllFree_eq (List.forall_mem_nil _) hchildren
      rw [List.map_nil] at hfree
      simp only [Except.map, ok_bind, Payload.children_map, hfree]
      cases tree.expectAllFree [] payload.children <;> rfl

theorem Mirrors.childOf {c p : NodeId} (hc : tree.ChildOf c p) : mirror.ChildOf (f c) (f p) := by
  obtain ⟨node, hnode, hp⟩ := childOf_iff.mp hc
  obtain ⟨node', hnode', -, hparent⟩ := h.node_eq hnode
  exact childOf_iff.mpr ⟨node', hnode', by rw [hparent, hp]; rfl⟩

/-- Every parent in the second tree has a name in the first. -/
theorem Mirrors.exists_childOf {c q : NodeId} (hc : tree.Has c) (hq : mirror.ChildOf (f c) q) :
    ∃ p, q = f p ∧ tree.ChildOf c p := by
  obtain ⟨node, hnode⟩ := has_iff.mp hc
  obtain ⟨node', hnode', -, hparent⟩ := h.node_eq hnode
  obtain ⟨other, hother, hp⟩ := childOf_iff.mp hq
  rw [← Except.ok.inj (hnode'.symm.trans hother), hparent, Option.map_eq_some_iff] at hp
  obtain ⟨p, hp, rfl⟩ := hp
  exact ⟨p, rfl, childOf_iff.mpr ⟨node, hnode, hp⟩⟩

/-- Ancestors correspond by their names. -/
theorem Mirrors.mem_ancestors_iff {c a : NodeId} (hc : tree.Has c) (ha : tree.Has a) :
    f a ∈ mirror.ancestors (f c) ↔ a ∈ tree.ancestors c := by
  rw [h.linked.mem_ancestors_iff, h.linked_mirror.mem_ancestors_iff]
  constructor
  · intro hup
    have habove : ∀ q, TransGen mirror.ChildOf (f c) q →
        ∃ p, q = f p ∧ TransGen tree.ChildOf c p := by
      intro q hq
      induction hq with
      | single hq =>
          obtain ⟨p, rfl, hp⟩ := h.exists_childOf hc hq
          exact ⟨p, rfl, TransGen.single hp⟩
      | tail _ hq ih =>
          obtain ⟨p, rfl, hp⟩ := ih
          obtain ⟨p', rfl, hp'⟩ := h.exists_childOf (h.linked.has_above hp) hq
          exact ⟨p', rfl, hp.tail hp'⟩
    obtain ⟨p, he, hp⟩ := habove (f a) hup
    rwa [h.injective ha (h.linked.has_above hp) he]
  · intro hup
    exact TransGen.lift f (fun _ _ hp => h.childOf hp) _ _ hup

/-- An append has the same outcome in both trees. -/
theorem Mirrors.append_eq {block child : NodeId} (hblock : tree.Has block)
    (hchild : tree.Has child) :
    (mirror.append (f block) (f child)).map (fun _ => ()) =
      (tree.append block child).map fun _ => () := by
  obtain ⟨node, hnode⟩ := has_iff.mp hchild
  obtain ⟨node', hnode', hpayload, hparent⟩ := h.node_eq hnode
  have hne : f child = f block ↔ child = block := ⟨h.injective hchild hblock, congrArg f⟩
  simp only [append, h.kind_eq hblock, hnode, hnode', hparent, Option.isSome_map, Node.kind,
    hpayload, Payload.kind_map, hne, h.mem_ancestors_iff hblock hchild, look, ok_bind]
  cases tree.kind block with
  | error e => rfl
  | ok kind =>
      rw [ok_bind, ok_bind]
      split
      · rfl
      · cases expectStatementKind node.payload.kind with
        | error e => rfl
        | ok _ =>
            rw [ok_bind, ok_bind]
            split
            · rfl
            · split <;> rfl

/-! ## Changes -/

variable {tree' mirror' : Tree} {node node' : Node}

theorem Mirrors.parent_eq (hn : tree.Has n) :
    mirror.parent (f n) = (tree.parent n).map (Option.map f) := by
  obtain ⟨node, hnode⟩ := has_iff.mp hn
  obtain ⟨node', hnode', -, hparent⟩ := h.node_eq hnode
  simp only [parent, hnode, hnode', Except.map, hparent]

/-- Methods are methods under both names. -/
theorem Mirrors.isMethodHead_eq (hnode : tree.node n = .ok node)
    (hnode' : mirror.node (f n) = .ok node') :
    mirror.isMethodHead node' = tree.isMethodHead node :=
  h.linked.isMethodHead_congr h.kind_eq h.parent_eq hnode hnode'

/-- Trees that get a node for the same draft. -/
theorem Mirrors.grown (hgrown : tree.Grown tree' node) (hgrown' : mirror.Grown mirror' node')
    (hpayload : node'.payload = node.payload.map f) (hroot : node.parent = none)
    (hroot' : node'.parent = none) :
    tree'.Mirrors mirror' (Function.update f tree.nextId mirror.nextId) := by
  have hold : ∀ {m}, tree.Has m → Function.update f tree.nextId mirror.nextId m = f m :=
    fun hm => Function.update_of_ne hm.ne_nextId _ _
  have hnew : Function.update f tree.nextId mirror.nextId tree.nextId = mirror.nextId :=
    Function.update_self _ _ _
  have hchildren : ∀ c ∈ node.payload.children, tree.Has c := fun c hc => (hgrown.free c hc).has
  constructor
  · exact h.linked.grown hgrown hroot
  · exact h.linked_mirror.grown hgrown' hroot'
  · intro n m hn hm he
    rcases hgrown.has_iff.mp hn with rfl | hn <;> rcases hgrown.has_iff.mp hm with rfl | hm
    · rfl
    · rw [hnew, hold hm] at he
      exact ((h.has hm).ne_nextId he.symm).elim
    · rw [hnew, hold hn] at he
      exact ((h.has hn).ne_nextId he).elim
    · rw [hold hn, hold hm] at he
      exact h.injective hn hm he
  · intro n found hfound
    by_cases hn : n = tree.nextId
    · subst hn
      obtain rfl := Except.ok.inj (hgrown.added.symm.trans hfound)
      refine ⟨node', by rw [hnew, hgrown'.added], ?_, by rw [hroot, hroot']; rfl⟩
      rw [hpayload]
      exact Payload.map_congr fun c hc => (hold (hchildren c hc)).symm
    · rw [hgrown.kept n hn, map_eq_ok_iff] at hfound
      obtain ⟨old, hnode, rfl⟩ := hfound
      have hhas := has_of_node hnode
      obtain ⟨old', hnode', hsame, hparent⟩ := h.node_eq hnode
      have hslots : ∀ c ∈ old.payload.children, tree.Has c :=
        h.linked.has_of_slot (payload_eq_ok_iff.mpr ⟨old, hnode, rfl⟩)
      have hrename : old.payload.map (Function.update f tree.nextId mirror.nextId) =
          old.payload.map f := Payload.map_congr fun c hc => hold (hslots c hc)
      have hmem : f n ∈ node'.payload.children ↔ n ∈ node.payload.children := by
        rw [hpayload, Payload.children_map]
        exact h.mem_map_iff hchildren hhas
      have hnode'' : mirror'.node (f n) = .ok
          (if f n ∈ node'.payload.children then old'.under mirror.nextId else old') := by
        rw [hgrown'.kept (f n) (h.has hhas).ne_nextId, hnode']
        rfl
      refine ⟨_, by rw [hold hhas, hnode''], ?_⟩
      by_cases hc : n ∈ node.payload.children
      · rw [if_pos hc, if_pos (hmem.mpr hc)]
        exact ⟨by rw [Node.under_payload, Node.under_payload, hrename, hsame],
          by rw [Node.under_parent, Node.under_parent, Option.map_some, hnew]⟩
      · rw [if_neg hc, if_neg fun hc' => hc (hmem.mp hc')]
        refine ⟨by rw [hrename, hsame], ?_⟩
        rw [hparent]
        cases hp : old.parent with
        | none => rfl
        | some p =>
            have hup := h.linked.has_parent (childOf_iff.mpr ⟨old, hnode, hp⟩)
            rw [Option.map_some, Option.map_some, hold hup]

/-- Trees that get the same statement in the same block. -/
theorem Mirrors.lengthened {block child : NodeId} (hlong : tree.Lengthened tree' block child)
    (hlong' : mirror.Lengthened mirror' (f block) (f child)) : tree'.Mirrors mirror' f where
  linked := h.linked.lengthened hlong
  linked_mirror := h.linked_mirror.lengthened hlong'
  injective := fun hn hm => h.injective (hlong.has_iff.mp hn) (hlong.has_iff.mp hm)
  node_eq := by
    intro n found hfound
    rw [hlong.node_eq n, map_eq_ok_iff] at hfound
    obtain ⟨old, hnode, rfl⟩ := hfound
    obtain ⟨old', hnode', hsame, hparent⟩ := h.node_eq hnode
    have hhas := has_of_node hnode
    obtain ⟨slots, hslots⟩ := hlong.exists_slots
    have hblock : f n = f block ↔ n = block := ⟨h.injective hhas hslots.has, congrArg f⟩
    have hchild : f n = f child ↔ n = child :=
      ⟨h.injective hhas hlong.appendable.free.has, congrArg f⟩
    have hnode'' := hlong'.node_eq (f n)
    rw [hnode'] at hnode''
    refine ⟨_, hnode'', ?_⟩
    simp only [hblock, hchild]
    split
    · exact ⟨by rw [Node.extended_payload, Node.extended_payload, hsame, Payload.map_addStatement],
        hparent⟩
    · split
      · exact ⟨hsame, rfl⟩
      · exact ⟨hsame, hparent⟩

/-- A change of the first tree that keeps its nodes. -/
theorem Mirrors.kept (hid : tree'.id = tree.id) (hnodes : tree'.nodes = tree.nodes) :
    tree'.Mirrors mirror f := by
  obtain ⟨i, nodes, pending⟩ := tree
  obtain ⟨i', nodes', pending'⟩ := tree'
  subst hid hnodes
  exact ⟨h.linked.quiet rfl rfl, h.linked_mirror, h.injective, h.node_eq⟩

/-- A change of the mirror that keeps payloads and parents of the mirrored
nodes. -/
theorem Mirrors.kept_mirror (hlinked : Linked mirror')
    (hkept : ∀ n node, tree.Has n → mirror.node (f n) = .ok node →
      ∃ node', mirror'.node (f n) = .ok node' ∧ node'.payload = node.payload ∧
        node'.parent = node.parent) :
    tree.Mirrors mirror' f where
  linked := h.linked
  linked_mirror := hlinked
  injective := h.injective
  node_eq := by
    intro n node hnode
    obtain ⟨old, hold, hsame, hparent⟩ := h.node_eq hnode
    obtain ⟨new, hnew, hsame', hparent'⟩ := hkept n old (has_of_node hnode) hold
    exact ⟨new, hnew, hsame'.trans hsame, hparent'.trans hparent⟩

end Mirrors

end Tree

end TypedSyntax
