import TypedSyntax.Proofs.Datum
import TypedSyntax.Proofs.Python.Steady
import TypedSyntax.Proofs.Tree.Mirror
import TypedSyntax.Proofs.Workspace.Handle

/-!
# Woven constructions

A construction is woven into a longer run, among calls that fail, that set
locations and comments, that work on other trees, or that name none of its
nodes. Its steps then end as they do on their own, and its nodes have the same
simplified exports.

The tree of the longer run mirrors the tree that the construction makes on its
own. An own step changes both trees in the same way, and a call aside changes
neither payloads nor parents of mirrored nodes.
-/

namespace TypedSyntax

open Relation

namespace Tree

variable {tree mirror : Tree} {f : NodeId → NodeId} {g g' : NodeId → Term} {n : NodeId}

/-- Counterparts have the same payload, up to names of nodes. -/
theorem Mirrors.payload_map (h : tree.Mirrors mirror f) (m : NodeId) (p : Payload NodeId)
    (hp : tree.payload m = .ok p) : mirror.payload (f m) = .ok (p.map f) := by
  obtain ⟨node, hnode, -⟩ := payload_eq_ok_iff.mp hp
  rw [h.payload_eq (has_of_node hnode), hp]
  rfl

/-- Counterparts have the same normal form where no comments differ. -/
theorem Mirrors.normal_eq (h : tree.Mirrors mirror f) (hg : tree.Cuts g) (hg' : mirror.Cuts g')
    (hn : tree.Has n)
    (hcomments : ∀ m, ReflTransGen tree.ChildOf m n →
      (mirror.node (f m)).map (·.comment) = (tree.node m).map (·.comment)) :
    (g n).normal TermInfo.shown = (g' (f n)).normal TermInfo.shown := by
  apply hg.normal_eq hg' h.payload_map hn
  intro m hm
  obtain ⟨node, hnode⟩ := has_iff.mp (has_below hn hm)
  obtain ⟨node', hnode', -⟩ := h.node_eq hnode
  have hcomment := hcomments m hm
  rw [hnode, hnode'] at hcomment
  have hcomment : node'.comment = node.comment := Except.ok.inj hcomment
  rw [hg.node_eq hnode, hg'.node_eq hnode', Term.info, Term.info, TermInfo.shown,
    TermInfo.shown, h.isMethodHead_eq hnode hnode', hcomment]

end Tree

namespace Workspace

open TypedSyntax.Tree

/-- A step of a construction. -/
inductive Step where
  | build (draft : Draft)
  | append (block child : NodeId)

namespace Step

/-- The nodes that a step names. -/
def references : Step → List NodeId
  | .build draft => draft.references
  | .append block child => [block, child]

def rename (f : NodeId → NodeId) : Step → Step
  | .build draft => .build (draft.rename f)
  | .append block child => .append (f block) (f child)

/-- The call that makes a step in a tree. -/
def action (i : Nat) : Step → Action
  | .build draft => .build i draft
  | .append block child => .append i block child

theorem rename_congr {f g : NodeId → NodeId} {step : Step}
    (h : ∀ n ∈ step.references, f n = g n) : step.rename f = step.rename g := by
  cases step with
  | build draft => exact congrArg Step.build (Draft.rename_congr h)
  | append block child =>
      obtain ⟨hblock, hchild⟩ := List.forall_mem_cons.mp h
      rw [rename, rename, hblock, hchild child List.mem_cons_self]

end Step

/-- The calls that make a construction on its own, in the only tree. -/
def construct (steps : List Step) : List Action :=
  .newTree :: steps.map (Step.action 0)

/-- The outcomes are the same up to names of nodes. -/
inductive Outcome.Alike (f : NodeId → NodeId) : Outcome → Outcome → Prop
  | done : Alike f .done .done
  | built {n} : Alike f (.built n) (.built (f n))
  | refused {e} : Alike f (.refused e) (.refused e)

theorem Outcome.Alike.built_of_eq {f : NodeId → NodeId} {n m : NodeId} (h : f n = m) :
    Outcome.Alike f (.built n) (.built m) :=
  h ▸ Outcome.Alike.built

/-- Outcomes are alike under names that agree on what was built. -/
theorem Outcome.Alike.congr {f g : NodeId → NodeId} {o o' : Outcome} (h : o.Alike f o')
    (hfg : ∀ n, o = .built n → f n = g n) : o.Alike g o' := by
  cases h with
  | done => exact Alike.done
  | built => exact built_of_eq (hfg _ rfl).symm
  | refused => exact Alike.refused

/-- The renaming after a step: a node that was built is sent to its counterpart. -/
def rebind (f : NodeId → NodeId) : Outcome → Outcome → NodeId → NodeId
  | .built n, .built m => Function.update f n m
  | _, _ => f

/-- A call that leaves a construction in a tree alone, from how it ends and the
nodes of the construction. -/
inductive Aside (j : Nat) (own : NodeId → Prop) : Action → Outcome → Prop
  | refused {a e} : Aside j own a (.refused e)
  | located {loc o} : Aside j own (.atLocation j loc) o
  | commented {node comment o} : Aside j own (.setComment j node comment) o
  | elsewhere {a o} : a.tree? ≠ some j → Aside j own a o
  | built {draft o} : (∀ n ∈ draft.references, ¬ own n) → Aside j own (.build j draft) o
  | appended {block child o} : ¬ own block → ¬ own child → Aside j own (.append j block child) o

/-- The run is woven from a construction in one of its trees and calls aside.
The renaming sends the nodes that the construction has on its own to its nodes in
the run. -/
inductive Woven (j : Nat) : List Step → List Action → (NodeId → NodeId) → Prop
  | opened {q f} : (run q).trees.size = j → Woven j [] (q ++ [.newTree]) f
  | own {steps q f step} : Woven j steps q f →
      (∀ n ∈ step.references, ((run (construct steps)).tree 0).Has n) →
      Woven j (steps ++ [step]) (q ++ [(step.rename f).action j])
        (rebind f ((run (construct steps)).perform (step.action 0)).1
          ((run q).perform ((step.rename f).action j)).1)
  | aside {steps q f a} : Woven j steps q f →
      Aside j (fun n => ∃ m, ((run (construct steps)).tree 0).Has m ∧ f m = n) a
        ((run q).perform a).1 →
      Woven j steps (q ++ [a]) f

/-- Further steps are performed in the first tree, one by one. -/
theorem construct_append (steps later : List Step) :
    construct (steps ++ later) = construct steps ++ later.map (Step.action 0) := by
  rw [construct, construct, List.map_append, List.cons_append]

/-! ## How calls end -/

variable {w after : Workspace} {a : Action} {o o' : Outcome} {i j : Nat} {f : NodeId → NodeId}

/-- A draft is built exactly if the tree admits it. -/
theorem outcome_build (h : i < w.trees.size) (draft : Draft) :
    (w.perform (.build i draft)).1 =
      match (w.tree i).admitted draft with
      | .ok _ => .built (w.tree i).nextId
      | .error e => .refused e := by
  have hknown : w.knows (.build i draft) = true := decide_eq_true h
  rw [perform, if_pos hknown]
  cases hadmitted : (w.tree i).admitted draft with
  | ok payload => simp only [apply, build, Tree.build_of_admitted hadmitted]
  | error e => simp only [apply, build, Tree.build_of_refused hadmitted]

/-- A statement is appended exactly if the tree allows it. -/
theorem outcome_append (h : i < w.trees.size) (block child : NodeId) :
    (w.perform (.append i block child)).1 =
      match ((w.tree i).append block child).map fun _ => () with
      | .ok () => .done
      | .error e => .refused e := by
  have hknown : w.knows (.append i block child) = true := decide_eq_true h
  rw [perform, if_pos hknown]
  cases happend : (w.tree i).append block child <;> simp only [apply, append, happend, Except.map]

variable {tree tree' mirror mirror' : Tree} {draft : Draft} {n block child : NodeId}

/-- A refused call leaves the nodes. -/
theorem Change.of_refused {e : ConstructionError} (h : Change i tree a (.refused e) tree') :
    tree'.id = tree.id ∧ tree'.nodes = tree.nodes := by
  cases h with
  | kept hid hnodes => exact ⟨hid, hnodes⟩

theorem Change.of_built (h : Change i tree (.build i draft) (.built n) tree') :
    ∃ payload tag, tree.payload? draft = .ok payload ∧
      tree.Grown tree' (tree.newNode tag payload) := by
  cases h with
  | kept _ _ hnot => exact (hnot rfl).elim
  | grown hpayload hgrown => exact ⟨_, _, hpayload, hgrown⟩

theorem Change.of_appended (h : Change i tree (.append i block child) .done tree') :
    tree.Lengthened tree' block child := by
  cases h with
  | kept _ _ hnot => exact (hnot rfl).elim
  | lengthened hlong => exact hlong

/-- A call about another tree leaves the nodes. -/
theorem Change.of_elsewhere (h : Change i tree a o tree') (ha : a.tree? ≠ some i) :
    tree'.id = tree.id ∧ tree'.nodes = tree.nodes := by
  cases h with
  | kept hid hnodes => exact ⟨hid, hnodes⟩
  | _ => exact (ha rfl).elim

/-! ## Steps -/

/-- A call aside keeps payloads and parents of the nodes of a construction. -/
theorem Aside.kept {own : NodeId → Prop} {node : Node} (ha : Aside j own a o)
    (h : Change j tree a o tree') (hn : own n) (hnode : tree.node n = .ok node) :
    ∃ node', tree'.node n = .ok node' ∧ node'.payload = node.payload ∧
      node'.parent = node.parent := by
  have hquiet : tree'.id = tree.id ∧ tree'.nodes = tree.nodes → tree'.node n = .ok node := by
    rintro ⟨hid, hnodes⟩
    rwa [Tree.node, hid, hnodes]
  cases ha with
  | refused => exact ⟨node, hquiet h.of_refused, rfl, rfl⟩
  | elsewhere ha => exact ⟨node, hquiet (h.of_elsewhere ha), rfl, rfl⟩
  | located =>
      cases h with
      | kept hid hnodes => exact ⟨node, hquiet ⟨hid, hnodes⟩, rfl, rfl⟩
  | commented =>
      cases h with
      | kept hid hnodes => exact ⟨node, hquiet ⟨hid, hnodes⟩, rfl, rfl⟩
      | commented hcommented =>
          refine ⟨_, (hcommented.node_eq n).trans (by rw [hnode]; rfl), ?_⟩
          split <;> exact ⟨rfl, rfl⟩
  | built hfree =>
      cases h with
      | kept hid hnodes => exact ⟨node, hquiet ⟨hid, hnodes⟩, rfl, rfl⟩
      | grown hpayload hgrown =>
          have hkept := hgrown.kept n (has_of_node hnode).ne_nextId
          rw [hnode, Except.map, if_neg] at hkept
          · exact ⟨node, hkept, rfl, rfl⟩
          · exact fun hc => hfree n (children_subset_references hpayload hc) hn
  | appended hblock hchild =>
      cases h with
      | kept hid hnodes => exact ⟨node, hquiet ⟨hid, hnodes⟩, rfl, rfl⟩
      | lengthened hlong =>
          have hkept := hlong.node_eq n
          rw [hnode, Except.map, if_neg, if_neg] at hkept
          · exact ⟨node, hkept, rfl, rfl⟩
          · rintro rfl
            exact hchild hn
          · rintro rfl
            exact hblock hn

/-- Trees mirror each other after calls that were refused. -/
theorem mirrors_of_refused {a' : Action} {e e' : ConstructionError} (h : tree.Mirrors mirror f)
    (hchange : Change i tree a (.refused e) tree')
    (hchange' : Change j mirror a' (.refused e') mirror') (hlinked : Linked mirror') :
    tree'.Mirrors mirror' f := by
  obtain ⟨hid, hnodes⟩ := hchange.of_refused
  obtain ⟨hid', hnodes'⟩ := hchange'.of_refused
  apply (h.kept hid hnodes).kept_mirror hlinked
  intro n node _ hnode
  exact ⟨node, by rwa [Tree.node, hid', hnodes'], rfl, rfl⟩

/-- An own step ends alike in both runs, and the trees mirror each other
afterwards. -/
theorem own_step {p q : List Action} {step : Step}
    (h : ((run p).tree i).Mirrors ((run q).tree j) f) (hi : i < (run p).trees.size)
    (hj : j < (run q).trees.size) (hstep : ∀ n ∈ step.references, ((run p).tree i).Has n)
    (ho : ((run p).perform (step.action i)).1 = o)
    (ho' : ((run q).perform ((step.rename f).action j)).1 = o') :
    o.Alike (rebind f o o') o' ∧ (∀ n, ((run p).tree i).Has n → rebind f o o' n = f n) ∧
      ((run (p ++ [step.action i])).tree i).Mirrors
        ((run (q ++ [(step.rename f).action j])).tree j) (rebind f o o') := by
  have hchange := change_run p (step.action i) i
  have hchange' := change_run q ((step.rename f).action j) j
  have hlinked := linked_run (q ++ [(step.rename f).action j]) j
  rw [ho] at hchange
  rw [ho'] at hchange'
  cases step with
  | build draft =>
      rw [Step.action, outcome_build hi] at ho
      rw [Step.rename, Step.action, outcome_build hj, h.admitted_eq hstep] at ho'
      cases hadmitted : ((run p).tree i).admitted draft with
      | error e =>
          rw [hadmitted] at ho ho'
          subst ho ho'
          exact ⟨Outcome.Alike.refused, fun _ _ => rfl,
            mirrors_of_refused h hchange hchange' hlinked⟩
      | ok payload =>
          rw [hadmitted] at ho ho'
          subst ho ho'
          obtain ⟨payload, tag, hpayload, hgrown⟩ := hchange.of_built
          obtain ⟨payload', tag', hpayload', hgrown'⟩ := hchange'.of_built
          rw [h.payload?_eq hstep, hpayload] at hpayload'
          refine ⟨?_, fun n hn => Function.update_of_ne hn.ne_nextId _ _,
            h.grown hgrown hgrown' (Except.ok.inj hpayload').symm rfl rfl⟩
          apply Outcome.Alike.built_of_eq
          exact Function.update_self _ _ _
  | append block child =>
      obtain ⟨hblock, hchild⟩ := List.forall_mem_cons.mp hstep
      rw [Step.action, outcome_append hi] at ho
      rw [Step.rename, Step.action, outcome_append hj,
        h.append_eq hblock (hchild child List.mem_cons_self)] at ho'
      cases happend : ((run p).tree i).append block child with
      | error e =>
          rw [happend] at ho ho'
          subst ho ho'
          exact ⟨Outcome.Alike.refused, fun _ _ => rfl,
            mirrors_of_refused h hchange hchange' hlinked⟩
      | ok _ =>
          rw [happend] at ho ho'
          subst ho ho'
          exact ⟨Outcome.Alike.done, fun _ _ => rfl,
            h.lengthened hchange.of_appended hchange'.of_appended⟩

/-! ## Woven runs -/

variable {steps before later : List Step} {step : Step} {q : List Action}

/-- The tree of a woven run mirrors the tree of its construction. -/
theorem Woven.mirrors (h : Woven j steps q f) :
    0 < (run (construct steps)).trees.size ∧ j < (run q).trees.size ∧
      ((run (construct steps)).tree 0).Mirrors ((run q).tree j) f := by
  induction h with
  | @opened q f hsize =>
      have hopened : (run (q ++ [.newTree])).trees = (run q).trees.push (.empty j) := by
        rw [run_concat, ← hsize]
        rfl
      have htree : (run (q ++ [.newTree])).tree j = .empty j := by
        simp [Workspace.tree, hopened, ← hsize]
      refine ⟨Nat.zero_lt_one, ?_, ?_⟩
      · rw [hopened, Array.size_push, hsize]
        exact Nat.lt_succ_self j
      rw [htree]
      have hempty : ∀ {n}, ¬ (Tree.empty 0).Has n := fun hn => Nat.not_lt_zero _ hn.2
      exact ⟨linked_empty 0, linked_empty j, fun hn => (hempty hn).elim,
        fun hnode => (hempty (has_of_node hnode)).elim⟩
  | @own steps q f step _ hstep ih =>
      obtain ⟨hi, hj, hmirrors⟩ := ih
      rw [construct_append]
      exact ⟨size_run_concat _ hi, size_run_concat _ hj,
        (own_step hmirrors hi hj hstep rfl rfl).2.2⟩
  | @aside steps q f a _ haside ih =>
      obtain ⟨hi, hj, hmirrors⟩ := ih
      refine ⟨hi, size_run_concat _ hj, hmirrors.kept_mirror (linked_run _ _) ?_⟩
      intro n node hn hnode
      exact haside.kept (change_run q a j) ⟨n, hn, rfl⟩ hnode

theorem has_construct_append (hn : ((run (construct steps)).tree 0).Has n) (later : List Step) :
    ((run (construct (steps ++ later))).tree 0).Has n := by
  rw [construct_append]
  exact has_run_append (construct steps) (later.map (Step.action 0)) hn

/-- The node that a step returns is there after the step. -/
theorem has_of_step (hi : 0 < (run (construct steps)).trees.size)
    (h : ((run (construct steps)).perform (step.action 0)).1 = .built n) :
    ((run (construct (steps ++ [step]))).tree 0).Has n := by
  rw [construct_append]
  cases step with
  | build draft => exact has_of_built h
  | append block child =>
      rw [Step.action, outcome_append hi] at h
      split at h <;> cases h

/-- Every step of a construction is made at some point of a woven run, and its
nodes keep their counterparts from then on. -/
theorem Woven.split (h : Woven j (before ++ step :: later) q f) :
    ∃ q₀ g q₁, Woven j before q₀ g ∧
      (∀ n ∈ step.references, ((run (construct before)).tree 0).Has n) ∧
      q = q₀ ++ (step.rename g).action j :: q₁ ∧
      ∀ n, ((run (construct (before ++ [step]))).tree 0).Has n →
        f n = rebind g ((run (construct before)).perform (step.action 0)).1
          ((run q₀).perform ((step.rename g).action j)).1 n := by
  generalize hsteps : before ++ step :: later = steps at h
  induction h generalizing later with
  | opened => exact (List.append_ne_nil_of_right_ne_nil _ (List.cons_ne_nil _ _) hsteps).elim
  | @own steps q f last hwoven hlast ih =>
      rcases List.eq_nil_or_concat later with rfl | ⟨later, last', rfl⟩
      · obtain ⟨rfl, hstep⟩ := List.append_inj' hsteps rfl
        obtain rfl := List.singleton_inj.mp hstep
        exact ⟨q, f, [], hwoven, hlast, rfl, fun _ _ => rfl⟩
      · rw [List.concat_eq_append, ← List.cons_append, ← List.append_assoc] at hsteps
        obtain ⟨rfl, -⟩ := List.append_inj' hsteps rfl
        obtain ⟨q₀, g, q₁, hbefore, hreferences, rfl, hagree⟩ := ih rfl
        obtain ⟨hi, hj, hmirrors⟩ := hwoven.mirrors
        refine ⟨q₀, g, q₁ ++ [_], hbefore, hreferences, List.append_assoc _ _ _, ?_⟩
        intro n hn
        have hhas := has_construct_append hn later
        rw [List.append_assoc, List.singleton_append] at hhas
        rw [(own_step hmirrors hi hj hlast rfl rfl).2.1 n hhas, hagree n hn]
  | aside _ _ ih =>
      obtain ⟨q₀, g, q₁, hbefore, hreferences, rfl, hagree⟩ := ih hsteps
      exact ⟨q₀, g, q₁ ++ [_], hbefore, hreferences, List.append_assoc _ _ _, hagree⟩

/-- Every step of a construction ends in a woven run as it does on its own. -/
theorem Woven.alike (h : Woven j (before ++ step :: later) q f) :
    ∃ q₀ q₁, q = q₀ ++ (step.rename f).action j :: q₁ ∧ (∃ g, Woven j before q₀ g) ∧
      Outcome.Alike f ((run (construct before)).perform (step.action 0)).1
        ((run q₀).perform ((step.rename f).action j)).1 := by
  obtain ⟨q₀, g, q₁, hbefore, hreferences, rfl, hagree⟩ := h.split
  obtain ⟨hi, hj, hsame⟩ := hbefore.mirrors
  obtain ⟨halike, hold, -⟩ := own_step hsame hi hj hreferences rfl rfl
  have hrename : step.rename f = step.rename g := by
    apply Step.rename_congr
    intro n hn
    have hhas := hreferences n hn
    rw [hagree n (has_construct_append hhas [step]), hold n hhas]
  rw [hrename]
  refine ⟨q₀, q₁, rfl, ⟨g, hbefore⟩, halike.congr ?_⟩
  intro n hn
  exact (hagree n (has_of_step hi hn)).symm

/-- In a woven run every step of a construction ends as it does on its own, and
every node has the same simplified export as its counterpart. The texts are the
same too where no comments differ. -/
theorem woven_run (h : Woven j steps q f) :
    let tree := (run (construct steps)).tree 0
    let woven := (run q).tree j
    (∀ before step later, steps = before ++ step :: later →
      ∃ q₀ q₁, q = q₀ ++ (step.rename f).action j :: q₁ ∧ (∃ g, Woven j before q₀ g) ∧
        Outcome.Alike f ((run (construct before)).perform (step.action 0)).1
          ((run q₀).perform ((step.rename f).action j)).1) ∧
    ∀ n, tree.Has n → woven.Has (f n) ∧
      (∃ d, tree.toDatum n .simplified = .ok d ∧ woven.toDatum (f n) .simplified = .ok d) ∧
      tree.structureEq n woven (f n) = .ok true ∧
      ((∀ m, ReflTransGen tree.ChildOf m n →
          (woven.node (f m)).map (·.comment) = (tree.node m).map (·.comment)) →
        ∀ writer writer' : Python.Writer, writer.options = writer'.options →
          ∃ s, (writer.render tree n).1 = .ok s ∧ (writer'.render woven (f n)).1 = .ok s) := by
  intro tree woven
  constructor
  · rintro before step later rfl
    exact h.alike
  · intro n hn
    obtain ⟨-, -, hmirrors⟩ : _ ∧ _ ∧ tree.Mirrors woven f := h.mirrors
    obtain ⟨g, hg⟩ : ∃ g, tree.Cuts g := cuts_run _ 0
    obtain ⟨g', hg'⟩ : ∃ g', woven.Cuts g' := cuts_run q j
    have hn' := hmirrors.has hn
    have hdatum := hg.datum_simplified_eq hg' hmirrors.payload_map hn
    refine ⟨hn', ⟨_, hg.toDatum_eq hn _, by rw [hg'.toDatum_eq hn', hdatum]⟩, ?_, ?_⟩
    · rw [structureEq, hg.toDatum_eq hn, hg'.toDatum_eq hn']
      exact congrArg Except.ok (Datum.structureEq_iff.mpr hdatum)
    · intro hcomments writer writer' hoptions
      obtain ⟨node, hnode⟩ := has_iff.mp hn
      obtain ⟨node', hnode'⟩ := has_iff.mp hn'
      exact Python.Writer.render_eq hoptions (hg.term_eq hnode) (hg'.term_eq hnode')
        (hmirrors.normal_eq hg hg' hn hcomments)

/-- A construction of a block with one statement, whose second append fails. -/
def oneStatement : List Step :=
  [.build (.block "body" []), .build .breaking, .append ⟨0, 0⟩ ⟨0, 1⟩, .append ⟨0, 0⟩ ⟨0, 1⟩]

/-- The construction in the second tree of a run, among calls aside. -/
def amidst : List Action :=
  [.newTree, .newTree,
    .build 1 .continuing,
    .build 1 (.block "body" []),
    .build 0 .breaking,
    .append 1 ⟨1, 1⟩ ⟨1, 1⟩,
    .setComment 1 ⟨1, 1⟩ "note",
    .atLocation 1 ⟨3, 4⟩,
    .build 1 .breaking,
    .setComment 1 ⟨1, 1⟩ "",
    .append 1 ⟨1, 1⟩ ⟨1, 2⟩,
    .append 1 ⟨1, 1⟩ ⟨1, 2⟩]

/-- Where the construction finds its nodes in the run. -/
def counterpart : NodeId → NodeId :=
  Function.update (Function.update id ⟨0, 0⟩ ⟨1, 1⟩) ⟨0, 1⟩ ⟨1, 2⟩

/-- Calls about other trees, refused calls and comments are woven in. -/
theorem woven_amidst : Woven 1 oneStatement amidst counterpart := by
  have hopened : Woven 1 [] [.newTree, .newTree] id := Woven.opened (q := [.newTree]) rfl
  have haside := hopened.aside (a := .build 1 .continuing) (.built nofun)
  have hblock : Woven 1 [.build (.block "body" [])] (amidst.take 4)
      (Function.update id ⟨0, 0⟩ ⟨1, 1⟩) := haside.own nofun
  have haside := hblock.aside (a := .build 0 .breaking) (.elsewhere (by decide))
  have haside := haside.aside (a := .append 1 ⟨1, 1⟩ ⟨1, 1⟩) .refused
  have haside := haside.aside (a := .setComment 1 ⟨1, 1⟩ "note") .commented
  have haside := haside.aside (a := .atLocation 1 ⟨3, 4⟩) .located
  have hstatement : Woven 1 (oneStatement.take 2) (amidst.take 9) counterpart := haside.own nofun
  have haside := hstatement.aside (a := .setComment 1 ⟨1, 1⟩ "") .commented
  have hhas : ∀ n ∈ [⟨0, 0⟩, ⟨0, 1⟩], ((run (construct (oneStatement.take 2))).tree 0).Has n := by
    simp only [List.forall_mem_cons, List.not_mem_nil, false_imp_iff, implies_true, and_true]
    exact ⟨⟨rfl, by decide⟩, ⟨rfl, by decide⟩⟩
  have happended : Woven 1 (oneStatement.take 3) (amidst.take 11) counterpart := haside.own hhas
  exact happended.own fun n hn =>
    has_construct_append (hhas n hn) [.append ⟨0, 0⟩ ⟨0, 1⟩]

/-- The tree built amidst them has the same export and the same text. -/
theorem woven_run_amidst :
    let tree := (run (construct oneStatement)).tree 0
    let woven := (run amidst).tree 1
    Woven 1 oneStatement amidst counterpart ∧
      (∃ q₀ q₁, amidst = q₀ ++ .append 1 ⟨1, 1⟩ ⟨1, 2⟩ :: q₁ ∧
        Outcome.Alike counterpart
          ((run (construct (oneStatement.take 3))).perform (.append 0 ⟨0, 0⟩ ⟨0, 1⟩)).1
          ((run q₀).perform (.append 1 ⟨1, 1⟩ ⟨1, 2⟩)).1) ∧
      tree.Has ⟨0, 0⟩ ∧ woven.Has ⟨1, 1⟩ ∧
      tree.structureEq ⟨0, 0⟩ woven ⟨1, 1⟩ = .ok true ∧
      ∃ s, ((Python.Writer.new .default).render tree ⟨0, 0⟩).1 = .ok s ∧
        ((Python.Writer.new .default).render woven ⟨1, 1⟩).1 = .ok s := by
  intro tree woven
  obtain ⟨hsteps, hnodes⟩ := woven_run woven_amidst
  obtain ⟨q₀, q₁, hsplit, -, halike⟩ := hsteps (oneStatement.take 3) (.append ⟨0, 0⟩ ⟨0, 1⟩) [] rfl
  have hid : tree.Has ⟨0, 0⟩ := ⟨rfl, by decide⟩
  obtain ⟨hid', -, hsame, hrender⟩ := hnodes ⟨0, 0⟩ hid
  refine ⟨woven_amidst, ⟨q₀, q₁, hsplit, halike⟩, hid, hid', hsame, ?_⟩
  apply hrender _ _ _ rfl
  intro m hm
  obtain ⟨htree, hindex⟩ := has_below hid hm
  obtain ⟨i, k⟩ := m
  obtain rfl : i = 0 := htree
  have hcomments : ∀ k < 2, (((run amidst).tree 1).node (counterpart ⟨0, k⟩)).map (·.comment) =
      (((run (construct oneStatement)).tree 0).node ⟨0, k⟩).map (·.comment) := by decide +kernel
  exact hcomments k hindex

end Workspace

end TypedSyntax
