import TypedSyntax.Proofs.DataType.Widest
import TypedSyntax.Proofs.Tree.Call
import TypedSyntax.Proofs.Tree.Literal
import TypedSyntax.Proofs.Workspace.Handle

/-!
# Arithmetic expressions

Expressions of arithmetic operators and signs over leaves that are numbers or `any`. Each of their
nodes can be built, and the type of the root depends on the types of the leaves alone.
-/

namespace TypedSyntax

/-- An expression without operands on which arithmetic is done, with the draft that is built. -/
structure Leaf where
  draft : Draft
  payload : Payload NodeId
  type : DataType
  payload?_eq : ∀ tree : Tree, tree.payload? draft = .ok payload
  children_eq : payload.children = []
  valueType?_eq : payload.valueType? = some type
  operand : type.IsOperand

namespace Leaf

def «variable» (name : String) (type : DataType) (h : type.IsOperand) : Leaf where
  draft := .variable name type
  payload := .variable name type
  type := type
  payload?_eq := fun _ => rfl
  children_eq := rfl
  valueType?_eq := rfl
  operand := h

def plain (literal : PlainLiteral) (h : literal.type.IsOperand) : Leaf where
  draft := .plain literal
  payload := .literal literal.value literal.type
  type := literal.type
  payload?_eq := fun _ => rfl
  children_eq := rfl
  valueType?_eq := rfl
  operand := h

def literal (value : LiteralValue) (type : DataType) (hfits : value.Fits type)
    (h : type.IsOperand) : Leaf where
  draft := .literal value type
  payload := .literal value type
  type := type
  payload?_eq := by
    intro tree
    rw [Tree.payload?, LiteralValue.check_eq_ok_iff.mpr hfits]
  children_eq := rfl
  valueType?_eq := rfl
  operand := h

end Leaf

/-- An expression of arithmetic operators and signs. -/
inductive Sketch where
  | leaf (l : Leaf)
  | sign (op : UnaryOperator) (hop : op ∈ [.neg, .pos]) (operand : Sketch)
  | arithmetic (op : BinaryOperator) (hop : op.operatorClass = .arithmetic) (lhs rhs : Sketch)

/-- The types of the leaves from left to right. -/
def Sketch.types : Sketch → List DataType
  | .leaf l => [l.type]
  | .sign _ _ operand => operand.types
  | .arithmetic _ _ lhs rhs => lhs.types ++ rhs.types

namespace Tree

/-- The nodes at and below an id are those of an expression. -/
inductive Holds (tree : Tree) : NodeId → Sketch → Prop
  | leaf {id} {l : Leaf} : tree.payload id = .ok l.payload → Holds tree id (.leaf l)
  | sign {id operand op hop type e} : tree.payload id = .ok (.unary op operand type) →
      Holds tree operand e → Holds tree id (.sign op hop e)
  | arithmetic {id lhs rhs op hop type e e'} :
      tree.payload id = .ok (.binary op lhs rhs type) →
      Holds tree lhs e → Holds tree rhs e' → Holds tree id (.arithmetic op hop e e')

/-- A draft of the root of an expression whose operands are held, and these operands. -/
inductive Drafts (tree : Tree) : Draft → List NodeId → Sketch → Prop
  | leaf {l : Leaf} : Drafts tree l.draft [] (.leaf l)
  | sign {token operand op hop e} : UnaryOperator.ofToken? token = some op →
      Holds tree operand e → Drafts tree (.unary token operand) [operand] (.sign op hop e)
  | arithmetic {token lhs rhs op hop e e'} : BinaryOperator.ofToken? token = some op →
      Holds tree lhs e → Holds tree rhs e' →
      Drafts tree (.binary token lhs rhs) [lhs, rhs] (.arithmetic op hop e e')

variable {tree : Tree} {id : NodeId} {e : Sketch}

/-- The type of the root is the widest type of the leaves. -/
theorem Holds.widest (h : tree.Holds id e) (ht : WellFormed tree) :
    ∃ type, tree.HasType id type ∧ DataType.Widest e.types type := by
  induction h with
  | @leaf id l hpayload =>
      exact ⟨l.type, hasType_of_payload hpayload l.valueType?_eq, .singleton l.operand⟩
  | @sign id operand op hop type e hpayload _ ih =>
      obtain ⟨found, hfound, hwidest⟩ := ih
      refine ⟨type, hasType_of_payload hpayload rfl, ?_⟩
      cases ht id _ hpayload with
      | unary htype htyping =>
          obtain rfl := htype.unique hfound
          exact hwidest.sign hop htyping
  | @arithmetic id lhs rhs op hop type e e' hpayload _ _ ih ih' =>
      obtain ⟨left, hleft, hwidest⟩ := ih
      obtain ⟨right, hright, hwidest'⟩ := ih'
      refine ⟨type, hasType_of_payload hpayload rfl, ?_⟩
      cases ht id _ hpayload with
      | binary hltype hrtype htyping =>
          obtain rfl := hltype.unique hleft
          obtain rfl := hrtype.unique hright
          exact hwidest.binary hwidest' hop htyping

/-- The draft of the root passes its check. -/
theorem Drafts.exists_payload {draft : Draft} {operands : List NodeId}
    (h : tree.Drafts draft operands e) (ht : WellFormed tree) :
    ∃ payload, tree.payload? draft = .ok payload ∧ payload.children = operands ∧
      ∀ {tree' : Tree} {id}, (∀ {n e'}, tree.Holds n e' → tree'.Holds n e') →
        tree'.payload id = .ok payload → tree'.Holds id e := by
  cases h with
  | @leaf l => exact ⟨l.payload, l.payload?_eq tree, l.children_eq, fun _ => Holds.leaf⟩
  | @sign token operand op hop e htoken hholds =>
      obtain ⟨type, htype, hwidest⟩ := hholds.widest ht
      refine ⟨.unary op operand type, ?_, rfl, fun hkeep hpayload => .sign hpayload (hkeep hholds)⟩
      have hresult := UnaryOperator.resultType_eq_ok_iff.mpr (hwidest.isOperand.sign hop)
      simp only [payload?, htoken, bind_eq_ok_iff, expressionType_eq_ok_iff, typed_eq_ok_iff,
        pure_eq_ok_iff]
      exact ⟨type, htype, type, hresult, rfl⟩
  | @arithmetic token lhs rhs op hop e e' htoken hlhs hrhs =>
      obtain ⟨left, hleft, hwidest⟩ := hlhs.widest ht
      obtain ⟨right, hright, hwidest'⟩ := hrhs.widest ht
      obtain ⟨type, htyping⟩ := hwidest.isOperand.exists_binary hwidest'.isOperand hop
      refine ⟨.binary op lhs rhs type, ?_, rfl,
        fun hkeep hpayload => .arithmetic hpayload (hkeep hlhs) (hkeep hrhs)⟩
      have hresult := BinaryOperator.resultType_eq_ok_iff.mpr htyping
      simp only [payload?, htoken, bind_eq_ok_iff, expressionType_eq_ok_iff, typed_eq_ok_iff,
        pure_eq_ok_iff]
      exact ⟨left, hleft, right, hright, type, hresult, rfl⟩

/-- A later tree holds an expression at a new root. What was held before still is, and only the
operands of the new root are no roots any more. -/
structure Built (tree tree' : Tree) (operands : List NodeId) (id : NodeId) (e : Sketch) :
    Prop where
  fresh : ¬ tree.Has id
  holds : tree'.Holds id e
  free : tree'.Free id
  kept : ∀ n e', tree.Holds n e' → tree'.Holds n e'
  others : ∀ n ∉ operands, tree.Free n → tree'.Free n

/-- An operand that is new is no operand for the tree without it. -/
theorem Built.trans {mid tree' : Tree} {operands operands' : List NodeId} {n : NodeId}
    {e' : Sketch} (h : Built tree mid [] n e) (hhas : ∀ m, tree.Has m → mid.Has m)
    (h' : Built mid tree' operands id e') (hoperands : ∀ c ∈ operands, c = n ∨ c ∈ operands') :
    Built tree tree' operands' id e' where
  fresh := fun hid => h'.fresh (hhas id hid)
  holds := h'.holds
  free := h'.free
  kept := fun m e'' hm => h'.kept m e'' (h.kept m e'' hm)
  others := by
    intro m hm hfree
    apply h'.others m _ (h.others m List.not_mem_nil hfree)
    intro hoperand
    rcases hoperands m hoperand with rfl | hmem
    · exact h.fresh hfree.has
    · exact hm hmem

end Tree

namespace Workspace

open TypedSyntax.Tree

variable {i : Nat} {id : NodeId} {e : Sketch}

/-- An expression stays what it is through every run. -/
theorem holds_run_append (actions later : List Action)
    (h : ((run actions).tree i).Holds id e) : ((run (actions ++ later)).tree i).Holds id e := by
  induction h with
  | @leaf id l hpayload => exact .leaf (payload_run_append actions later hpayload l.valueType?_eq)
  | sign hpayload _ ih => exact .sign (payload_run_append actions later hpayload rfl) ih
  | arithmetic hpayload _ _ ih ih' =>
      exact .arithmetic (payload_run_append actions later hpayload rfl) ih ih'

/-- One call builds the root of an expression on operands that are roots. -/
theorem exists_step (actions : List Action) (hi : i < (run actions).trees.size) {draft : Draft}
    {operands : List NodeId} (hdraft : ((run actions).tree i).Drafts draft operands e)
    (hfree : ∀ c ∈ operands, ((run actions).tree i).Free c) (hnodup : operands.Nodup) :
    ∃ id, ((run actions).perform (.build i draft)).1 = .built id ∧
      Built ((run actions).tree i) ((run (actions ++ [.build i draft])).tree i) operands id e := by
  obtain ⟨payload, hpayload, rfl, hholds⟩ := hdraft.exists_payload (wellFormed_run actions i)
  obtain ⟨id, after, hperform⟩ := exists_built (numbered_run actions) hi hpayload hfree hnodup
  have houtcome : ((run actions).perform (.build i draft)).1 = .built id := by rw [hperform]
  refine ⟨id, houtcome, ?_⟩
  have hchange := change_run actions (.build i draft) i
  have hkept : ∀ {n e'}, ((run actions).tree i).Holds n e' →
      ((run (actions ++ [.build i draft])).tree i).Holds n e' :=
    holds_run_append actions [.build i draft]
  rw [houtcome] at hchange
  cases hchange with
  | kept _ _ hnot => exact (hnot rfl).elim
  | @grown _ payload' tag _ hpayload' hgrown =>
      obtain rfl := Except.ok.inj (hpayload'.symm.trans hpayload)
      exact {
        fresh := not_has_nextId
        holds := hholds hkept (payload_eq_ok_iff.mpr ⟨_, hgrown.added, rfl⟩)
        free := ⟨_, hgrown.added, rfl⟩
        kept := fun n e' => hkept
        others := by
          rintro n hn ⟨node, hnode, hparent⟩
          have hlater := hgrown.kept n (has_of_node hnode).ne_nextId
          rw [hnode] at hlater
          exact ⟨node, hlater.trans (congrArg Except.ok (if_neg hn)), hparent⟩ }

/-- Calls after a run that build an expression, each of them a node: the operands from left to
right, and then the root. -/
inductive Constructs (i : Nat) : List Action → Sketch → List Action → NodeId → Prop
  | leaf {actions id} {l : Leaf} :
      ((run actions).perform (.build i l.draft)).1 = .built id →
      Constructs i actions (.leaf l) [.build i l.draft] id
  | sign {actions steps operand id op hop e} : Constructs i actions e steps operand →
      ((run (actions ++ steps)).perform (.build i (.unary op.token operand))).1 = .built id →
      Constructs i actions (.sign op hop e) (steps ++ [.build i (.unary op.token operand)]) id
  | arithmetic {actions steps more lhs rhs id op hop e e'} : Constructs i actions e steps lhs →
      Constructs i (actions ++ steps) e' more rhs →
      ((run (actions ++ (steps ++ more))).perform
        (.build i (.binary op.token lhs rhs))).1 = .built id →
      Constructs i actions (.arithmetic op hop e e')
        (steps ++ more ++ [.build i (.binary op.token lhs rhs)]) id

/-- Every expression can be built after every run, call by call. -/
theorem exists_constructs (actions : List Action) (hi : i < (run actions).trees.size)
    (e : Sketch) : ∃ steps id, Constructs i actions e steps id ∧
      Built ((run actions).tree i) ((run (actions ++ steps)).tree i) [] id e := by
  induction e generalizing actions with
  | leaf l =>
      obtain ⟨id, hid, hbuilt⟩ :=
        exists_step actions hi Drafts.leaf (List.forall_mem_nil _) List.nodup_nil
      exact ⟨_, id, .leaf hid, hbuilt⟩
  | sign op hop e ih =>
      obtain ⟨steps, operand, hsteps, hoperand⟩ := ih actions hi
      have hdraft : ((run (actions ++ steps)).tree i).Drafts (.unary op.token operand) [operand]
          (.sign op hop e) := .sign op.ofToken?_token hoperand.holds
      obtain ⟨id, hid, hroot⟩ := exists_step (actions ++ steps) (size_run_append actions steps hi)
        hdraft (List.forall_mem_singleton.mpr hoperand.free) (List.nodup_singleton operand)
      refine ⟨_, id, .sign hsteps hid, ?_⟩
      rw [← List.append_assoc]
      exact hoperand.trans (fun m => has_run_append actions steps) hroot
        (fun c hc => .inl (List.mem_singleton.mp hc))
  | arithmetic op hop e e' ih ih' =>
      obtain ⟨steps, lhs, hsteps, hlhs⟩ := ih actions hi
      have hsize := size_run_append actions steps hi
      obtain ⟨more, rhs, hmore, hrhs⟩ := ih' (actions ++ steps) hsize
      have hne : lhs ≠ rhs := by
        rintro rfl
        exact hrhs.fresh hlhs.free.has
      have hdraft : ((run (actions ++ steps ++ more)).tree i).Drafts (.binary op.token lhs rhs)
          [lhs, rhs] (.arithmetic op hop e e') :=
        .arithmetic op.ofToken?_token (hrhs.kept _ _ hlhs.holds) hrhs.holds
      obtain ⟨id, hid, hroot⟩ := exists_step (actions ++ steps ++ more)
        (size_run_append (actions ++ steps) more hsize) hdraft
        (List.forall_mem_cons.mpr ⟨hrhs.others lhs List.not_mem_nil hlhs.free,
          List.forall_mem_singleton.mpr hrhs.free⟩)
        (List.nodup_cons.mpr ⟨by simpa using hne, List.nodup_singleton rhs⟩)
      rw [List.append_assoc] at hid
      refine ⟨_, id, .arithmetic hsteps hmore hid, ?_⟩
      rw [← List.append_assoc, ← List.append_assoc]
      -- The right operand is new to the tree with the left one, which is new to the first tree.
      have hright : Built ((run (actions ++ steps)).tree i) _ [lhs] id _ :=
        hrhs.trans (fun m => has_run_append (actions ++ steps) more) hroot (by simp [or_comm])
      exact hlhs.trans (fun m => has_run_append actions steps) hright (by simp)

/-- After every run the type of an arithmetic expression is the widest type of its leaves. Every
call for a node of such an expression succeeds, and so do all calls for an expression one after the
other. Expressions with the same types of leaves have the same type, whatever their operators and
grouping are. -/
theorem arithmetic_run (i : Nat) :
    (∀ actions id e, ((run actions).tree i).Holds id e →
      ∃ type, ((run actions).tree i).HasType id type ∧
        ∀ t, DataType.Widest e.types t ↔ t = type) ∧
    (∀ actions, i < (run actions).trees.size →
      (∀ e draft operands, ((run actions).tree i).Drafts draft operands e →
        (∀ c ∈ operands, ((run actions).tree i).Free c) → operands.Nodup →
          ∃ id, ((run actions).perform (.build i draft)).1 = .built id ∧
            Built ((run actions).tree i) ((run (actions ++ [.build i draft])).tree i)
              operands id e) ∧
      ∀ e, ∃ steps id, Constructs i actions e steps id ∧
        Built ((run actions).tree i) ((run (actions ++ steps)).tree i) [] id e) ∧
    ∀ actions others j id id' e e', ((run actions).tree i).Holds id e →
      ((run others).tree j).Holds id' e' → e.types = e'.types →
        ((run actions).tree i).typeOf id = ((run others).tree j).typeOf id' := by
  refine ⟨?types, ?steps, ?grouping⟩
  case types =>
    intro actions id e hholds
    obtain ⟨type, htype, hwidest⟩ := hholds.widest (wellFormed_run actions i)
    refine ⟨type, htype, fun t => ⟨fun ht => ht.unique hwidest, ?_⟩⟩
    rintro rfl
    exact hwidest
  case steps =>
    intro actions hi
    exact ⟨fun e draft operands => exists_step actions hi, exists_constructs actions hi⟩
  case grouping =>
    intro actions others j id id' e e' hholds hholds' htypes
    obtain ⟨type, htype, hwidest⟩ := hholds.widest (wellFormed_run actions i)
    obtain ⟨type', htype', hwidest'⟩ := hholds'.widest (wellFormed_run others j)
    rw [← htypes] at hwidest'
    obtain rfl := hwidest.unique hwidest'
    exact htype.trans htype'.symm

/-- An unknown plus the product of an integer and a negated number of the same width. -/
def sumOfProduct : Sketch :=
  .arithmetic .add rfl (.leaf (.variable "a" .any (.inr rfl)))
    (.arithmetic .mul rfl
      (.leaf (.literal (.int 7) (.int true .w32) (.int (by decide)) (.inl rfl)))
      (.sign .neg (by decide) (.leaf (.plain (.float32 0) (.inl rfl)))))

theorem arithmetic_run_tie :
    let actions : List Action := [.newTree, .build 0 (.variable "a" .any),
      .build 0 (.literal (.int 7) (.int true .w32)), .build 0 (.plain (.float32 0)),
      .build 0 (.unary "-" ⟨0, 2⟩), .build 0 (.binary "*" ⟨0, 1⟩ ⟨0, 3⟩),
      .build 0 (.binary "+" ⟨0, 0⟩ ⟨0, 4⟩)]
    ((run actions).tree 0).Holds ⟨0, 5⟩ sumOfProduct ∧
      ((run actions).tree 0).HasType ⟨0, 5⟩ (.int true .w32) := by
  intro actions
  have hholds : ((run actions).tree 0).Holds ⟨0, 5⟩ sumOfProduct :=
    .arithmetic rfl (.leaf rfl) (.arithmetic rfl (.leaf rfl) (.sign rfl (.leaf rfl)))
  obtain ⟨type, htype, hwidest⟩ := (arithmetic_run 0).1 actions ⟨0, 5⟩ sumOfProduct hholds
  have hfirst : DataType.Widest sumOfProduct.types (.int true .w32) :=
    .first [.any] [.float .w32] rfl rfl (by decide) (by decide)
  obtain rfl := (hwidest _).mp hfirst
  exact ⟨hholds, htype⟩

end Workspace

end TypedSyntax
