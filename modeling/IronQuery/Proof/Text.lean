import IronQuery.Builders
import IronQuery.Pg.Proof.Indent

/-! # The text of each expression operator, and of an indented block -/

namespace IronQuery

open OperatorPrecedence

theorem indentBlock_indented (x : Text) (n : Nat) :
    indentBlock x n = List.replicate n ' ' ++ Pg.indented n x := by
  have hline : (fun c => if c = '\n' then c :: List.replicate n ' ' else [c]) =
      fun c => if c = '\n' then '\n' :: List.replicate n ' ' else [c] := by
    funext c
    by_cases hc : c = '\n'
    · rw [if_pos hc, if_pos hc, hc]
    · rw [if_neg hc, if_neg hc]
  rw [indentBlock_eq, hline]
  rfl

@[simp] theorem render_child (e : Expr) (ctx : OperatorPrecedence) :
    (e.child ctx).render = e.extract ctx := rfl

@[simp] theorem render_child_condition (c : Condition) (ctx : OperatorPrecedence) :
    (c.child ctx).render = c.extract ctx := rfl

@[simp] theorem render_text (s : Text) : (Part.text s).render = s := rfl

theorem extract_eq (e : Expr) (ctx : OperatorPrecedence) :
    e.extract ctx = if ctx.toNat ≤ e.node.precedence.toNat then '(' :: (e.toString ++ [')'])
      else e.toString := renderWithContext_eq e.node ctx

section
variable (a b c : Expr)

theorem fromRaw_text (s : Text) (p : OperatorPrecedence) : (Expr.fromRaw s p).toString = s := rfl

theorem dot_text : (a.dot b).toString = a.extract kDot ++ '.' :: b.extract kDot := by
  simp [Expr.dot, Expr.toString]

theorem castRaw_text (type : Text) : (a.castRaw type).toString =
    "CAST (".toList ++ (a.extract kTypecast ++ (" AS ".toList ++ (type ++ [')']))) := by
  simp [Expr.castRaw, Expr.toString]

theorem collate_text (collation : Collation) : (a.collate collation).toString =
    a.extract kCollate ++ (" COLLATE ".toList ++ collation.name) := by
  simp [Expr.collate, Expr.toString, Collation.toString]

theorem index_text : (a.index b).toString =
    a.extract kIndex ++ ('[' :: (b.extract kExtract ++ [']'])) := by
  simp [Expr.index, Expr.toString]

theorem binaryNode_text (p : OperatorPrecedence) (op : Text) :
    render (Expr.binaryNode p op a b) =
      a.extract p ++ ((' ' :: (op ++ [' '])) ++ b.extract p) := by
  simp [Expr.binaryNode]

theorem neg_text : a.neg.toString = '-' :: a.extract kUnaryPlus := by
  simp [Expr.neg, Expr.toString]

theorem prefixOp_text (op : Text) (p : OperatorPrecedence) :
    render (makeNode p [.text (op ++ " ".toList), a.child p]) = (op ++ [' ']) ++ a.extract p := by
  simp

theorem not_text : a.not.toString = "NOT ".toList ++ a.extract kNot := by
  simp [Expr.not, Expr.toString]

theorem betweenNode_text (connector : Text) : (Expr.betweenNode connector a b c).toString =
    a.extract kBetween ++ (connector ++ (b.extract kBetween ++ (" AND ".toList ++
      c.extract kBetween))) := by
  simp [Expr.betweenNode, Condition.toString]

theorem likeNode_text (connector : Text) : (Expr.likeNode connector a b).toString =
    a.extract kBetween ++ (connector ++ b.extract kBetween) := by
  simp [Expr.likeNode, Condition.toString]

theorem quantNode_text (connector : Text) : (Expr.quantNode connector a b).toString =
    a.extract kCompare ++ (connector ++ (b.extract kExtract ++ [')'])) := by
  simp [Expr.quantNode, Condition.toString]

theorem isNode_text (test : Text) : (Expr.isNode test a).toString = a.extract kIs ++ test := by
  simp [Expr.isNode, Condition.toString]

theorem distinctNode_text (connector : Text) : (Expr.distinctNode connector a b).toString =
    a.extract kIs ++ (connector ++ b.extract kIs) := by
  simp [Expr.distinctNode, Condition.toString]

/-- The arguments between commas, as text. -/
def argsText (args : List Expr) : Text := (Expr.commaParts args).flatMap Part.render

theorem argsText_cons (l : List Expr) :
    argsText (a :: b :: l) = a.extract kExtract ++ (", ".toList ++ argsText (b :: l)) := by
  simp [argsText, Expr.commaParts]

theorem argsText_singleton : argsText [a] = a.extract kExtract := by
  simp [argsText, Expr.commaParts]

theorem buildCallNode_text (name pre : Text) (args : List Expr) :
    render (Expr.buildCallNode name pre args) =
      name ++ ('(' :: (pre ++ (argsText args ++ [')']))) := by
  simp [Expr.buildCallNode, argsText]

theorem buildInListNode_ok {connector : Text} {values : List Expr} {r : Condition}
    (h : Expr.buildInListNode a connector values = .ok r) :
    values ≠ [] ∧ r.node.precedence = kBetween ∧
      r.toString = a.extract kBetween ++ (connector ++ ('(' :: (argsText values ++ [')']))) := by
  unfold Expr.buildInListNode at h
  split at h
  · cases h
  · rename_i hl
    cases h
    refine ⟨by rintro rfl; exact hl rfl, rfl, ?_⟩
    simp [Condition.toString, argsText]

end

section
variable (a b : Condition)

theorem and_text : (a.and b).toString = a.extract kAnd ++ (" AND ".toList ++ b.extract kAnd) := by
  simp [Condition.and, Condition.toString]

theorem or_text : (a.or b).toString = a.extract kOr ++ (" OR ".toList ++ b.extract kOr) := by
  simp [Condition.or, Condition.toString]

theorem condition_not_text : a.not.toString = "NOT ".toList ++ a.extract kNot := by
  simp [Condition.not, Condition.toString]

end

end IronQuery
