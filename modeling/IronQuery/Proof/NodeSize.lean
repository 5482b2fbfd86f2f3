import IronQuery.Impl.Node

/-!
# The size of a node

`node_size`: of every node that `MakeLeaf` and `MakeNode` build (`Built`) the size is the length of
its rendering, and both ways to render it in a context give the same text.
-/

namespace IronQuery

mutual

/-- The nodes that `MakeLeaf` and `MakeNode` build. -/
inductive Built : Node → Prop
  | leaf (text : Text) (precedence : OperatorPrecedence) : Built (makeLeaf text precedence)
  | node (precedence : OperatorPrecedence) (parts : List Part) :
      (∀ part ∈ parts, BuiltPart part) → Built (makeNode precedence parts)

/-- The parts over them. -/
inductive BuiltPart : Part → Prop
  | text (s : Text) : BuiltPart (.text s)
  | childRef {node : Node} (context : OperatorPrecedence) : Built node →
      BuiltPart (.childRef node context)

end

/-- What a node adds to its parent when it is put in brackets. -/
def bracketSize (node : Node) (context : OperatorPrecedence) : Nat :=
  if needsParens node context then 2 else 0

theorem renderWithContext_length (node : Node) (context : OperatorPrecedence) :
    (renderWithContext node context).length = (render node).length + bracketSize node context := by
  rw [renderWithContext_eq, bracketSize, needsParens]
  split
  · rename_i h
    simp [h]
  · rename_i h
    simp [h]

theorem foldl_size (parts : List Part) (n : Nat) :
    parts.foldl (fun size part => size + partSize part) n = n + (parts.map partSize).sum := by
  induction parts generalizing n with
  | nil => rfl
  | cons part parts ih => rw [List.foldl_cons, ih, List.map_cons, List.sum_cons, Nat.add_assoc]

theorem makeNode_size {parts : List Part} (precedence : OperatorPrecedence)
    (h : ∀ part ∈ parts, partSize part = part.render.length) :
    (makeNode precedence parts).size = (render (makeNode precedence parts)).length := by
  rw [render_makeNode, List.length_flatMap]
  show parts.foldl (fun size part => size + partSize part) 0 = _
  rw [foldl_size, Nat.zero_add, List.map_congr_left h]

mutual

theorem Built.size_eq {node : Node} : Built node → node.size = (render node).length
  | .leaf _ _ => rfl
  | .node precedence _ h => makeNode_size precedence fun part hm => (h part hm).size_eq

theorem BuiltPart.size_eq {part : Part} : BuiltPart part → partSize part = part.render.length
  | .text _ => rfl
  | @BuiltPart.childRef node context h => by
    show node.size + bracketSize node context = (renderWithContext node context).length
    rw [renderWithContext_length, h.size_eq]

end

/-- **The size of a node is exact, and the two ways to render it agree**: `out` is what the parent
has written so far. -/
theorem node_size {node : Node} (h : Built node) : node.size = (render node).length ∧
    ∀ context, (renderWithContext node context).length =
        node.size + (if needsParens node context then 2 else 0) ∧
      ∀ out, appendPart out (.childRef node context) = out ++ renderWithContext node context := by
  refine ⟨h.size_eq, fun context => ⟨?_, fun out => appendPart_eq out _⟩⟩
  rw [renderWithContext_length, h.size_eq, bracketSize]

/-- `(a) + b`, whose first operand is put in brackets. -/
theorem node_size_sum :
    let a := makeLeaf "a".toList .kOr
    let node := makeNode .kPlus [.childRef a .kPlus, .text " + b".toList]
    node.size = (render node).length ∧ ∀ context, (renderWithContext node context).length =
        node.size + (if needsParens node context then 2 else 0) ∧
      ∀ out, appendPart out (.childRef node context) = out ++ renderWithContext node context :=
  node_size (.node _ _ (List.forall_mem_cons.2 ⟨.childRef _ (.leaf _ _),
    List.forall_mem_singleton.2 (.text _)⟩))

end IronQuery
