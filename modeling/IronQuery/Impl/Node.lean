import IronQuery.Exception

/-!
# Expression nodes (`impl/node.cpp`, `operator_precedence.hpp`)

A node is rendered by joining its parts; a part that is a child node is put in parentheses when its
precedence is not tighter than the context it stands in.
-/

namespace IronQuery

inductive OperatorPrecedence
  | kSymbol
  | kDot
  | kTypecast
  | kIndex
  | kUnaryPlus
  | kCollate
  | kAt
  | kExp
  | kMul
  | kPlus
  | kAnyOther
  | kBetween
  | kCompare
  | kIs
  | kNot
  | kAnd
  | kOr
  /-- Pseudo precedence for "no brackets". -/
  | kExtract
  deriving DecidableEq, Repr

/-- The enumerators compare by position. -/
def OperatorPrecedence.toNat : OperatorPrecedence → Nat
  | kSymbol => 0
  | kDot => 1
  | kTypecast => 2
  | kIndex => 3
  | kUnaryPlus => 4
  | kCollate => 5
  | kAt => 6
  | kExp => 7
  | kMul => 8
  | kPlus => 9
  | kAnyOther => 10
  | kBetween => 11
  | kCompare => 12
  | kIs => 13
  | kNot => 14
  | kAnd => 15
  | kOr => 16
  | kExtract => 17

mutual

/-- An expression or condition tree; `size` is the length of its rendering. -/
inductive Node
  | mk (precedence : OperatorPrecedence) (parts : List Part) (size : Nat)

/-- One piece of a node's rendering: a fragment of text, or a child node in its context. -/
inductive Part
  | text (s : Text)
  | childRef (node : Node) (context : OperatorPrecedence)

end

namespace Node

def precedence : Node → OperatorPrecedence
  | mk p _ _ => p

def parts : Node → List Part
  | mk _ ps _ => ps

def size : Node → Nat
  | mk _ _ n => n

end Node

def needsParens (child : Node) (context : OperatorPrecedence) : Bool :=
  context.toNat ≤ child.precedence.toNat

def partSize : Part → Nat
  | .text s => s.length
  | .childRef node context => node.size + if needsParens node context then 2 else 0

mutual

/-- `out` with the part appended. -/
def appendPart (out : Text) : Part → Text
  | .text s => out ++ s
  | .childRef (.mk precedence parts _) context =>
    if context.toNat ≤ precedence.toNat then
      appendParts (out ++ ['(']) parts ++ [')']
    else appendParts out parts

def appendParts (out : Text) : List Part → Text
  | [] => out
  | part :: parts => appendParts (appendPart out part) parts

end

def makeLeaf (text : Text) (precedence : OperatorPrecedence) : Node :=
  .mk precedence [.text text] text.length

def makeNode (precedence : OperatorPrecedence) (parts : List Part) : Node :=
  .mk precedence parts (parts.foldl (fun size part => size + partSize part) 0)

/-- The rendering of a node, without parentheses at the top. -/
def render (node : Node) : Text := appendParts [] node.parts

def renderWithContext (node : Node) (context : OperatorPrecedence) : Text :=
  if needsParens node context then appendParts ['('] node.parts ++ [')']
  else appendParts [] node.parts

/-! ## The text of a part and of a node -/

/-- What a part adds to the output. -/
def Part.render : Part → Text
  | .text s => s
  | .childRef node context => renderWithContext node context

mutual

theorem appendPart_eq (out : Text) : (part : Part) → appendPart out part = out ++ part.render
  | .text s => rfl
  | .childRef (.mk precedence parts _) context => by
    by_cases h : context.toNat ≤ precedence.toNat
    · simp only [appendPart, Part.render, renderWithContext, needsParens, Node.precedence,
        Node.parts, h, decide_true, if_true]
      rw [appendParts_append, appendParts_append ['(']]
      simp only [List.append_assoc]
    · simp only [appendPart, Part.render, renderWithContext, needsParens, Node.precedence,
        Node.parts, h, decide_false, Bool.false_eq_true, if_false]
      rw [appendParts_append]

theorem appendParts_append (out : Text) : (parts : List Part) →
    appendParts out parts = out ++ appendParts [] parts
  | [] => by simp [appendParts]
  | part :: parts => by
    rw [appendParts, appendParts, appendParts_append (appendPart out part),
      appendParts_append (appendPart [] part), appendPart_eq out part, appendPart_eq [] part,
      List.nil_append, List.append_assoc]

end

theorem appendParts_eq (parts : List Part) : appendParts [] parts = parts.flatMap Part.render := by
  induction parts with
  | nil => rfl
  | cons part parts ih =>
    rw [appendParts, appendParts_append, ih, appendPart_eq, List.nil_append, List.flatMap_cons]

@[simp] theorem precedence_makeLeaf (text : Text) (p : OperatorPrecedence) :
    (makeLeaf text p).precedence = p := rfl

@[simp] theorem precedence_makeNode (p : OperatorPrecedence) (parts : List Part) :
    (makeNode p parts).precedence = p := rfl

@[simp] theorem render_makeLeaf (text : Text) (p : OperatorPrecedence) :
    render (makeLeaf text p) = text := rfl

@[simp] theorem render_makeNode (p : OperatorPrecedence) (parts : List Part) :
    render (makeNode p parts) = parts.flatMap Part.render := appendParts_eq parts

/-- **The two ways to embed a node**: in parentheses, or as it is. -/
theorem renderWithContext_eq (node : Node) (context : OperatorPrecedence) :
    renderWithContext node context =
      if context.toNat ≤ node.precedence.toNat then '(' :: (render node ++ [')'])
      else render node := by
  simp only [renderWithContext, needsParens, render, decide_eq_true_eq]
  split
  · rw [appendParts_append]; rfl
  · rfl

end IronQuery
