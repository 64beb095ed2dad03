import TypedSyntax.Proofs.Python.Steady

/-!
# Histories of a writer

A writer carries the imports that it noted from one rendering to the next. Its
answers depend on its options alone, so that no rendering shows what was
rendered before, whatever the trees and nodes were.
-/

namespace TypedSyntax.Python

/-- A rendering that a writer is asked for: the subtree below a node of a tree,
which need not have that node. -/
structure Request where
  tree : Tree
  root : NodeId

namespace Writer

variable {writer writer' : Writer}

/-- The writer after some renderings, answered or refused. -/
def after (writer : Writer) (requests : List Request) : Writer :=
  requests.foldl (fun writer request => (writer.render request.tree request.root).2) writer

@[simp] theorem after_cons (writer : Writer) (request : Request) (requests : List Request) :
    writer.after (request :: requests) =
      (writer.render request.tree request.root).2.after requests := rfl

/-- A rendering changes at most the noted imports. -/
@[simp] theorem options_render (writer : Writer) (tree : Tree) (root : NodeId) :
    (writer.render tree root).2.options = writer.options := by
  unfold render
  split <;> rfl

/-- Renderings leave the options of a writer. -/
theorem options_after (writer : Writer) (requests : List Request) :
    (writer.after requests).options = writer.options := by
  induction requests generalizing writer with
  | nil => rfl
  | cons request requests ih => rw [after_cons, ih, options_render]

/-- Writers with the same options give the same answer, whatever imports they
noted before. -/
theorem answer_eq_of_options_eq (h : writer.options = writer'.options) (tree : Tree)
    (root : NodeId) : (writer.render tree root).1 = (writer'.render tree root).1 := by
  cases hterm : tree.term root with
  | error e => simp only [render, hterm]
  | ok t =>
      rw [render_fst hterm, render_fst hterm, h,
        steady_text writer'.options t writer.imports writer'.imports]

/-- After every history a writer answers as a new writer with its options. -/
theorem answer_after (options : PythonOptions) (requests : List Request) (tree : Tree)
    (root : NodeId) :
    (((new options).after requests).render tree root).1 = ((new options).render tree root).1 := by
  apply answer_eq_of_options_eq
  rw [options_after]

end Writer

end TypedSyntax.Python
