import IronQuery.Pg.Lexer

/-!
# The boolean structure of an expression

`AND`, `OR` and `NOT` bind looser than every other operator. `cut` cuts the tokens of an expression
at those of them that stand outside brackets and outside `CASE`, the `AND` of a `BETWEEN` and the
`NOT` of an operator excepted, and `readTokens` puts the parts together: `NOT` tighter than `AND`,
`AND` tighter than `OR`, each from the left, and brackets around more than one part opened. Into the
parts themselves it does not look: `term` stands for what reads them.
-/

namespace Pg

/-! ## Formulas -/

inductive Junct
  | and | or
  deriving DecidableEq, Repr

/-- A boolean expression over tests. -/
inductive Formula (τ : Type)
  | test (a : τ)
  | not (a : Formula τ)
  | and (a b : Formula τ)
  | or (a b : Formula τ)
  deriving DecidableEq

section
variable {τ : Type}

def Formula.size : Formula τ → Nat
  | test _ => 1
  | not a => a.size + 1
  | and a b | or a b => a.size + b.size + 1

/-- `a`, behind the alternatives to the left of it. -/
def disj : Option (Formula τ) → Formula τ → Formula τ
  | none, a => a
  | some o, a => .or o a

/-- The formula of operands with `AND` and `OR` between them: `a` is the conjunction that is being
read, `o` the alternatives to the left of it. -/
def climb : List (Junct × Formula τ) → Option (Formula τ) → Formula τ → Formula τ
  | [], o, a => disj o a
  | (.and, b) :: r, o, a => climb r o (.and a b)
  | (.or, b) :: r, o, a => climb r (some (disj o a)) b

end

/-! ## What a token is outside brackets -/

inductive Group
  | round | square | case
  deriving DecidableEq, Repr

inductive Role
  | opening (g : Group)
  | closing (g : Group)
  | junct (j : Junct)
  | not
  | between
  /-- A word with an operand on either side. -/
  | link
  | operator
  /-- A word between `BETWEEN` and its operand. -/
  | filler
  | point
  | operand
  /-- It stands in no expression. -/
  | foreign
  deriving DecidableEq, Repr

def wordRoles : List (Text × Role) :=
  [("AND".toList, .junct .and), ("OR".toList, .junct .or), ("NOT".toList, .not),
    ("BETWEEN".toList, .between), ("CASE".toList, .opening .case), ("END".toList, .closing .case),
    ("LIKE".toList, .link), ("ILIKE".toList, .link), ("TO".toList, .link), ("FROM".toList, .link),
    ("ESCAPE".toList, .link), ("OVERLAPS".toList, .link), ("SYMMETRIC".toList, .filler),
    ("ASYMMETRIC".toList, .filler), ("SELECT".toList, .foreign), ("UNION".toList, .foreign),
    ("INTERSECT".toList, .foreign), ("EXCEPT".toList, .foreign), ("ORDER".toList, .foreign),
    ("LIMIT".toList, .foreign), ("OFFSET".toList, .foreign)]

def punctRoles : List (Char × Role) :=
  [('(', .opening .round), (')', .closing .round), ('[', .opening .square), (']', .closing .square),
    ('.', .point), (':', .operator)]

def Token.role : Token → Role
  | .word w => (wordRoles.lookup (w.map Char.toUpper)).getD .operand
  | .punct c => (punctRoles.lookup c).getD .foreign
  | .op _ => .operator
  | .comment | .unterminated => .foreign
  | _ => .operand

def Token.isWord : Token → Bool
  | .word _ => true
  | _ => false

/-! ## Cutting at `AND`, `OR` and `NOT` -/

/-- An operand, and the number of `NOT`s in front of it. -/
structure Factor where
  nots : Nat
  tokens : List Token
  deriving DecidableEq, Repr

structure Spine where
  first : Factor
  rest : List (Junct × Factor)
  deriving DecidableEq, Repr

namespace Spine

def nil : Spine := ⟨⟨0, []⟩, []⟩

/-- One more token in front of the first operand. -/
def push (t : Token) (s : Spine) : Spine := ⟨⟨s.first.nots, t :: s.first.tokens⟩, s.rest⟩

def negate (s : Spine) : Spine := ⟨⟨s.first.nots + 1, s.first.tokens⟩, s.rest⟩

def join (j : Junct) (s u : Spine) : Spine := ⟨s.first, s.rest ++ (j, u.first) :: u.rest⟩

def factors (s : Spine) : List Factor := s.first :: s.rest.map Prod.snd

def juncts (s : Spine) : List Junct := s.rest.map Prod.fst

end Spine

/-- Where the reader stands. -/
structure Cursor where
  /-- What is open, from the inside. -/
  groups : List Group := []
  /-- The `BETWEEN`s whose `AND` is to come. -/
  pending : Nat := 0
  /-- An operand is to come. -/
  expects : Bool := true
  /-- Behind a point, where a word is a name. -/
  dotted : Bool := false
  /-- At the start of an operand of `AND`, `OR` or `NOT`. -/
  fresh : Bool := true

/-- What a token is to the operand in front of it. -/
inductive Move
  | part
  | not
  | junct (j : Junct)

/-- Brackets hide `CASE` and `END`, which may be names there. -/
def Group.hides : Group → Group → Bool
  | .case, _ => false
  | _, h => h == .case

/-- What is open behind a token inside `g`. -/
def nest (g : Group) (gs : List Group) : Role → Option (List Group)
  | .opening h => some (if g.hides h then g :: gs else h :: g :: gs)
  | .closing h => if g.hides h then some (g :: gs) else if h = g then some gs else none
  | _ => some (g :: gs)

namespace Cursor

/-- Inside a group. -/
def inside (c : Cursor) (g : Group) (gs : List Group) (r : Role) : Option (Move × Cursor) :=
  (nest g gs r).map fun gs => (.part, { c with groups := gs, expects := false })

def role (c : Cursor) (t : Token) : Role := if c.dotted && t.isWord then .operand else t.role

/-- Outside all groups, unless no expression goes on so. -/
def outside (c : Cursor) : Role → Option (Move × Cursor)
  | .opening g => some (.part, { c with groups := [g] })
  | .closing _ | .foreign => none
  | .junct .and =>
    if 0 < c.pending then some (.part, { c with pending := c.pending - 1, expects := true })
    else if c.fresh then none
    else some (.junct .and, {})
  | .junct .or => if 0 < c.pending ∨ c.fresh = true then none else some (.junct .or, {})
  -- the `NOT` of an operator stands behind an operand or inside one
  | .not => some (if c.fresh then .not else .part, c)
  | .between =>
    if c.expects then some (.part, { c with expects := false })
    else some (.part, { c with pending := c.pending + 1, expects := true })
  | .link => some (.part, { c with expects := !c.expects })
  | .operator => some (.part, { c with expects := true })
  | .filler | .point => some (.part, c)
  | .operand => some (.part, { c with expects := false })

def turn (c : Cursor) (r : Role) : Option (Move × Cursor) :=
  match c.groups with
  | [] => c.outside r
  | g :: gs => c.inside g gs r

/-- Behind the token. -/
def past (c : Cursor) (t : Token) : Move → Cursor
  | .part => { c with dotted := t == .punct '.', fresh := false }
  | _ => c

def step (c : Cursor) (t : Token) : Option (Move × Cursor) :=
  if t = .unterminated then none
  else (c.turn (c.role t)).map fun p => (p.1, p.2.past t p.1)

/-- An expression may end here. -/
def done (c : Cursor) : Bool := c.groups.isEmpty && c.pending == 0 && !c.dotted && !c.fresh

end Cursor

/-- The token in front of what the rest of the expression is cut into. -/
def Move.apply (t : Token) : Move → Spine → Spine
  | .part => .push t
  | .not => .negate
  | .junct j => Spine.nil.join j

def cut : Cursor → List Token → Option Spine
  | c, [] => if c.done then some .nil else none
  | c, t :: ts => (c.step t).bind fun p => (cut p.2 ts).map (p.1.apply t)

/-! ## Reading -/

/-- The tokens between a bracket in front and one at the end. -/
def unbracket : List Token → Option (List Token)
  | .punct '(' :: ts => if ts.getLast? = some (.punct ')') then some ts.dropLast else none
  | _ => none

section
variable {τ : Type} (term : List Token → τ)

/-- An operand: a formula in brackets, or a test. -/
def openOperand (rd : List Token → Option (Formula τ)) (ts : List Token) : Formula τ :=
  match (unbracket ts).bind rd with
  | none | some (.test _) => .test (term ts)
  | some f => f

def Factor.formula (op : List Token → Formula τ) (f : Factor) : Formula τ :=
  Nat.iterate .not f.nots (op f.tokens)

def Spine.formula (op : List Token → Formula τ) (s : Spine) : Formula τ :=
  climb (s.rest.map fun p => (p.1, p.2.formula op)) none (s.first.formula op)

/-- The formula of an expression, with `n` levels of brackets to look into. -/
def readTokens : Nat → List Token → Option (Formula τ)
  | 0, _ => none
  | n + 1, ts => (cut {} ts).map fun s => s.formula (openOperand term (readTokens n))

/-- The tokens of an expression. -/
def readBoolean (ts : List Token) : Option (Formula τ) := readTokens term (ts.length + 1) ts

end

/-- The text is one expression. -/
def isExpr (s : Text) : Bool := (cut {} (lex s)).isSome

/-- The `AND`s and `OR`s of an expression at which it is cut. -/
def juncts (s : Text) : List Junct := ((cut {} (lex s)).map Spine.juncts).getD []

example : juncts "a between 1 and b.or AND (c OR d) IS NOT NULL or not e".toList = [.and, .or] := by
  decide +kernel

end Pg
