import TypedSyntax.Proofs.Export.Subtree

/-!
# Agreement of exports

After every run the simplified export of a node is its full export without
metadata, and all metadata in the full export describes the node of its
wrapper.
-/

namespace TypedSyntax

/-- Metadata gives location, comment, instance tag and kind of a node, and the
type of a node that has a value. -/
structure Describes (node : Node) (metadata : Datum) : Prop where
  keys_eq : metadata.keys =
    ["loc", "comment", "ref", "kind"] ++ (node.payload.valueType?.map fun _ => "type").toList
  loc_eq : metadata.get? "loc" = some (
    if node.loc.line = 0 then .map [("line", .int (-1)), ("col", .int (-1))]
    else .map [("line", .int node.loc.line.toNat), ("col", .int node.loc.column.toNat)])
  comment_eq : metadata.get? "comment" = some (.text node.comment)
  ref_eq : metadata.get? "ref" = some (.int node.tag)
  kind_eq : metadata.get? "kind" = some (.text node.kind.name)
  type_eq : metadata.get? "type" = node.payload.valueType?.map fun type => .text type.key

namespace Tree

open Relation

variable {tree : Tree} {id : NodeId} {node : Node} {g : NodeId → Term}

theorem Cuts.describes (hg : tree.Cuts g) (hnode : tree.node id = .ok node) :
    Describes node (g id).metadata := by
  have hmetadata : (g id).metadata = .map ([
      ("loc", Term.locationDatum node.loc),
      ("comment", .text node.comment),
      ("ref", .int node.tag),
      ("kind", .text node.kind.name)] ++
      (node.payload.valueType?.map fun type => ("type", Datum.text type.key)).toList) := by
    rw [Term.metadata, hg.node_eq hnode, Term.kind, Term.payload, Term.info, Payload.kind_map,
      Payload.valueType?_map]
    rfl
  have hloc : Term.locationDatum node.loc =
      if node.loc.line = 0 then .map [("line", .int (-1)), ("col", .int (-1))]
      else .map [("line", .int node.loc.line.toNat), ("col", .int node.loc.column.toNat)] := by
    by_cases hline : node.loc.line = 0 <;>
      simp [Term.locationDatum, SourceLocation.isKnown, hline]
  rw [hmetadata]
  constructor
  · cases node.payload.valueType? <;> rfl
  · exact congrArg some hloc
  · rfl
  · rfl
  · rfl
  · cases node.payload.valueType? <;> rfl

/-- After every run the full export of a node erases to its simplified export.
Each of its wrappers is the full export of a node of the subtree, with
metadata that describes this node. -/
theorem erase_toDatum_run (actions : List Workspace.Action) (i : Nat) (id : NodeId)
    (hid : ((Workspace.run actions).tree i).Has id) :
    let tree := (Workspace.run actions).tree i
    ∃ full, tree.toDatum id .full = .ok full ∧ tree.toDatum id .simplified = .ok full.erase ∧
      ∀ w ∈ full.wrappers, ∃ n node, ReflTransGen tree.ChildOf n id ∧ tree.node n = .ok node ∧
        tree.toDatum n .full = .ok w.toDatum ∧ Describes node w.metadata := by
  intro tree
  obtain ⟨g, hg⟩ : ∃ g, tree.Cuts g := cuts_run actions i
  refine ⟨(g id).datum .full, hg.toDatum_eq hid .full, ?_, ?_⟩
  · rw [hg.erase_datum hid]
    exact hg.toDatum_eq hid .simplified
  · intro w hmem
    rw [hg.wrappers_datum hid] at hmem
    obtain ⟨n, hn, rfl⟩ := List.mem_map.mp hmem
    have hbelow := hg.linked.below_of_mem_preorder hid n ((hg.linked.wrapped_sublist hid).subset hn)
    obtain ⟨node, hnode⟩ := has_iff.mp (hg.linked.has_of_mem_wrapped hid hn)
    exact ⟨n, node, hbelow, hnode, hg.toDatum_eq (has_of_node hnode) .full, hg.describes hnode⟩

/-- A run that adds a variable with a number sign in its name. -/
def signedSum : List Workspace.Action :=
  [.newTree,
    .build 0 (.variable "a#1" (.int true .w64)),
    .build 0 (.variable "b" (.int true .w64)),
    .build 0 (.binary "+" ⟨0, 0⟩ ⟨0, 1⟩)]

theorem erase_toDatum_signedSum :
    let tree := (Workspace.run signedSum).tree 0
    tree.Has ⟨0, 2⟩ ∧ ∃ full, tree.toDatum ⟨0, 2⟩ .full = .ok full ∧
      full.erase = .single "BINARY[+]"
        (.map [("lhs", .single "VARIABLE[a#1]" (.text "a#1")),
          ("rhs", .single "VARIABLE[b]" (.text "b"))]) ∧
      tree.toDatum ⟨0, 2⟩ .simplified = .ok full.erase := by
  intro tree
  have hid : tree.Has ⟨0, 2⟩ := ⟨rfl, by decide⟩
  obtain ⟨full, hfull, hsimplified, -⟩ := erase_toDatum_run signedSum 0 ⟨0, 2⟩ hid
  have hvalue : tree.toDatum ⟨0, 2⟩ .simplified = .ok (.single "BINARY[+]"
      (.map [("lhs", .single "VARIABLE[a#1]" (.text "a#1")),
        ("rhs", .single "VARIABLE[b]" (.text "b"))])) := rfl
  exact ⟨hid, full, hfull, Except.ok.inj (hsimplified.symm.trans hvalue), hsimplified⟩

end Tree

end TypedSyntax
