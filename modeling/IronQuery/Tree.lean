import IronQuery.Builders
import IronQuery.Pg.Subquery
import IronQuery.Proof.Names

/-!
# Trees of named operators

`Tree` is a program of the expression API: its atoms are the values' constructors, its nodes the
calls of the named operators, of `PrefixOp` and `BinaryOp`, and of the operators on a subquery.
`Tree.build` runs it, `Tree.toSql` is what it means in SQL. `Tree.Named` says what the API does not
check of names: that they are identifiers and no key words. `Tree.WF` leaves the named operators
over values that are no subqueries, with no sign in front of a number and no integer next to a
point.

C++ tells conditions from expressions, and admits only conditions under `&&`, `||` and `!`; here any
tree may stand there.
-/

namespace IronQuery

open OperatorPrecedence Pg

/-! ## Families of operators -/

/-- The infix operators on expressions. -/
inductive BinOp
  | exp | mul | div | mod | add | sub | concat
  deriving DecidableEq, Repr

namespace BinOp

def name : BinOp → Text
  | exp => "^".toList
  | mul => "*".toList
  | div => "/".toList
  | mod => "%".toList
  | add => "+".toList
  | sub => "-".toList
  | concat => "||".toList

def prec : BinOp → OperatorPrecedence
  | exp => kExp
  | mul | div | mod => kMul
  | add | sub => kPlus
  | concat => kAnyOther

def apply : BinOp → Expr → Expr → Result Expr
  | exp => Expr.exp
  | mul => Expr.mul
  | div => Expr.div
  | mod => Expr.mod
  | add => Expr.add
  | sub => Expr.sub
  | concat => Expr.concat

end BinOp

inductive CompareOp
  | lt | le | gt | ge | eq | ne
  deriving DecidableEq, Repr

namespace CompareOp

def name : CompareOp → Text
  | lt => "<".toList
  | le => "<=".toList
  | gt => ">".toList
  | ge => ">=".toList
  | eq => "=".toList
  | ne => "!=".toList

def apply : CompareOp → Expr → Expr → Condition
  | lt => Expr.lt
  | le => Expr.le
  | gt => Expr.gt
  | ge => Expr.ge
  | eq => Expr.eq
  | ne => Expr.ne

end CompareOp

inductive IsOp
  | isTrue | isFalse | isNull | isNotNull
  deriving DecidableEq, Repr

namespace IsOp

def apply : IsOp → Expr → Condition
  | isTrue => Expr.isTrue
  | isFalse => Expr.isFalse
  | isNull => Expr.isNull
  | isNotNull => Expr.isNotNull

def negated : IsOp → Bool
  | isNotNull => true
  | _ => false

def test : IsOp → Test
  | isTrue => .true
  | isFalse => .false
  | isNull | isNotNull => .null

end IsOp

/-- The pattern matches, plain and negated. -/
def applyLike : LikeOp → Bool → Expr → Expr → Condition
  | .like, false => Expr.like
  | .like, true => Expr.notLike
  | .ilike, false => Expr.iLike
  | .ilike, true => Expr.notILike
  | .similarTo, false => Expr.similarTo
  | .similarTo, true => Expr.notSimilarTo

/-- The collations the library names. -/
inductive BuiltinCollation
  | default | c | posix
  deriving DecidableEq, Repr

namespace BuiltinCollation

def collation : BuiltinCollation → Collation
  | default => Collation.default
  | c => Collation.c
  | posix => Collation.posix

def name : BuiltinCollation → Text
  | default => "default".toList
  | c => "C".toList
  | posix => "POSIX".toList

end BuiltinCollation

/-! ## Trees -/

/-- A query that stands in brackets for a value or a set of values: its text is read as the tokens
of a query, whose brackets are balanced. -/
structure Subquery where
  table : VirtualTable
  text : Text
  tokens : List Token
  bracketed : table.toStringBracketed = .ok ("(".toList ++ text ++ ")".toList)
  reads : Opens lex (text ++ [')']) (tokens ++ [.punct ')'])
  closes : ∀ r, upTo 0 (tokens ++ .punct ')' :: r) = some (tokens, r)
  query : isQuery tokens = true

inductive Tree
  | null
  | bool (value : Bool)
  | placeholder (n : Fin 10)
  | literal (value : Text)
  | ident (name : Text)
  | int (value : Nat)
  | column (name : Text)
  /-- A column of a table alias. -/
  | qualified (table column : Text)
  | countAll
  | dot (a b : Tree)
  | castRaw (a : Tree) (type : Text)
  | index (a b : Tree)
  | collate (a : Tree) (collation : BuiltinCollation)
  | neg (a : Tree)
  | bin (op : BinOp) (a b : Tree)
  | between (neg : Bool) (a b c : Tree)
  | like (op : LikeOp) (neg : Bool) (a b : Tree)
  | isIn (neg : Bool) (a : Tree) (values : List Tree)
  | compare (op : CompareOp) (a b : Tree)
  | eqAny (a array : Tree)
  | neAll (a array : Tree)
  | is (op : IsOp) (a : Tree)
  | distinctFrom (neg : Bool) (a b : Tree)
  /-- `Expr::operator!`. -/
  | exprNot (a : Tree)
  /-- `Condition::operator!`. -/
  | condNot (a : Tree)
  | and (a b : Tree)
  | or (a b : Tree)
  | call (name : Text) (distinct : Bool) (args : List Tree)
  | case (whens : List (Tree × Tree)) (els : Option Tree)
  /-- The integer `-(n + 1)`. -/
  | negative (n : Nat)
  | prefixOp (op : Text) (a : Tree)
  | binaryOp (op : Text) (a b : Tree)
  /-- `Exists` and `NotExists`. -/
  | exists (neg : Bool) (q : Subquery)
  /-- A query converted to an expression. -/
  | scalar (q : Subquery)
  /-- `In` and `NotIn` of a query. -/
  | inQuery (neg : Bool) (a : Tree) (q : Subquery)
  | eqAnyQuery (a : Tree) (q : Subquery)
  | neAllQuery (a : Tree) (q : Subquery)

/-- The expression as the condition it was made from. -/
def Expr.toCondition (e : Expr) : Condition := ⟨e.node⟩

mutual

/-- The program run through the API. -/
def Tree.build : Tree → Result Expr
  | .null => .ok .null
  | .bool value => .ok (.bool value)
  | .placeholder n => .ok (IronQuery.placeholder n)
  | .literal value => Expr.literal value
  | .ident name => Expr.ident name
  | .int value => .ok (.fromInteger value)
  | .column name => .ok (Column.toExpr ⟨name⟩)
  | .qualified table column => do
    let t ← TableAlias.from table
    return t.dotColumn ⟨column⟩
  | .countAll => .ok .countAll
  | .dot a b => do return (← a.build).dot (← b.build)
  | .castRaw a type => do return (← a.build).castRaw type
  | .index a b => do return (← a.build).index (← b.build)
  | .collate a coll => do return (← a.build).collate coll.collation
  | .neg a => do return (← a.build).neg
  | .bin op a b => do op.apply (← a.build) (← b.build)
  | .between neg a b c => do
    let a ← a.build
    let b ← b.build
    let c ← c.build
    return (if neg then a.notBetween b c else a.between b c).toExpr
  | .like op neg a b => do return (applyLike op neg (← a.build) (← b.build)).toExpr
  | .isIn neg a values => do
    let a ← a.build
    let values ← buildList values
    return (← if neg then a.notIn values else a.isIn values).toExpr
  | .compare op a b => do return (op.apply (← a.build) (← b.build)).toExpr
  | .eqAny a b => do return ((← a.build).eqAny (← b.build)).toExpr
  | .neAll a b => do return ((← a.build).neAll (← b.build)).toExpr
  | .is op a => do return (op.apply (← a.build)).toExpr
  | .distinctFrom neg a b => do
    let a ← a.build
    let b ← b.build
    return (if neg then a.isNotDistinctFrom b else a.isDistinctFrom b).toExpr
  | .exprNot a => do return (← a.build).not
  | .condNot a => do return (← a.build).toCondition.not.toExpr
  | .and a b => do return ((← a.build).toCondition.and (← b.build).toCondition).toExpr
  | .or a b => do return ((← a.build).toCondition.or (← b.build).toCondition).toExpr
  | .call name distinct args => do
    let args ← buildList args
    if distinct then Expr.callDistinct name args else Expr.call name args
  | .case whens els => do
    let b ← buildWhens whens IronQuery.case
    let b ← buildElse els b
    b.end
  | .negative n => .ok (.fromInteger (.negSucc n))
  | .prefixOp op a => do Expr.prefixOp op (← a.build)
  | .binaryOp op a b => do (← a.build).binaryOp op (← b.build)
  | .exists neg q => do
    return (← if neg then Expr.notExists q.table else Expr.exists q.table).toExpr
  | .scalar q => q.table.toExpr
  | .inQuery neg a q => do
    let a ← a.build
    return (← if neg then a.notInSubquery q.table else a.inSubquery q.table).toExpr
  | .eqAnyQuery a q => do return (← (← a.build).eqAnySubquery q.table).toExpr
  | .neAllQuery a q => do return (← (← a.build).neAllSubquery q.table).toExpr

def buildList : List Tree → Result (List Expr)
  | [] => .ok []
  | t :: l => do return (← t.build) :: (← buildList l)

def buildWhens : List (Tree × Tree) → CaseBuilder → Result CaseBuilder
  | [], b => .ok b
  | (c, r) :: l, b => do
    let b ← (b.when (← c.build).toCondition).result
    let b ← (b.then (← r.build)).result
    buildWhens l b

def buildElse : Option Tree → CaseBuilder → Result CaseBuilder
  | none, b => .ok b
  | some e, b => do (b.else (← e.build)).result

end

/-! ## The trees in a tree -/

mutual

/-- The trees under the root. -/
def Tree.under : Tree → List Tree
  | .castRaw a _ | .collate a _ | .neg a | .is _ a | .exprNot a | .condNot a | .prefixOp _ a
  | .inQuery _ a _ | .eqAnyQuery a _ | .neAllQuery a _ => a :: a.under
  | .dot a b | .index a b | .bin _ a b | .like _ _ a b | .compare _ a b | .eqAny a b | .neAll a b
  | .distinctFrom _ a b | .and a b | .or a b | .binaryOp _ a b =>
    (a :: a.under) ++ (b :: b.under)
  | .between _ a b c => (a :: a.under) ++ ((b :: b.under) ++ (c :: c.under))
  | .isIn _ a values => (a :: a.under) ++ underList values
  | .call _ _ args => underList args
  | .case whens els => underWhens whens ++ underElse els
  | _ => []

def underList : List Tree → List Tree
  | [] => []
  | t :: l => (t :: t.under) ++ underList l

def underWhens : List (Tree × Tree) → List Tree
  | [] => []
  | (c, r) :: l => (c :: c.under) ++ ((r :: r.under) ++ underWhens l)

def underElse : Option Tree → List Tree
  | none => []
  | some e => e :: e.under

end

/-- Every tree in `t` has the property. -/
def Tree.All (p : Tree → Prop) (t : Tree) : Prop := ∀ s ∈ t :: t.under, p s

instance (p : Tree → Prop) [DecidablePred p] (t : Tree) : Decidable (t.All p) :=
  inferInstanceAs (Decidable (∀ s ∈ t :: t.under, p s))

section
variable {p q : Tree → Prop} {t a b c : Tree}

theorem Tree.All.root (h : t.All p) : p t := h t (.head _)

theorem Tree.All.mono (h : t.All p) (hpq : ∀ s, p s → q s) : t.All q := fun s hs => hpq s (h s hs)

theorem all_iff : t.All p ↔ p t ∧ ∀ s ∈ t.under, p s := List.forall_mem_cons

theorem all_one (h : t.under = a :: a.under) : t.All p ↔ p t ∧ a.All p := by
  rw [all_iff, h]
  rfl

theorem all_two (h : t.under = (a :: a.under) ++ (b :: b.under)) :
    t.All p ↔ p t ∧ a.All p ∧ b.All p := by
  rw [all_iff, h, List.forall_mem_append]
  rfl

theorem all_three (h : t.under = (a :: a.under) ++ ((b :: b.under) ++ (c :: c.under))) :
    t.All p ↔ p t ∧ a.All p ∧ b.All p ∧ c.All p := by
  rw [all_iff, h, List.forall_mem_append, List.forall_mem_append]
  rfl

theorem all_list {l : List Tree} : (∀ s ∈ underList l, p s) ↔ ∀ t ∈ l, t.All p := by
  induction l with
  | nil => simp [underList]
  | cons t l ih =>
    simp only [underList, List.forall_mem_append, ih, List.forall_mem_cons (a := t) (l := l),
      Tree.All]

theorem all_whens {l : List (Tree × Tree)} :
    (∀ s ∈ underWhens l, p s) ↔ ∀ w ∈ l, w.1.All p ∧ w.2.All p := by
  induction l with
  | nil => simp [underWhens]
  | cons w l ih =>
    simp only [underWhens, List.forall_mem_append, ih, List.forall_mem_cons (a := w) (l := l),
      Tree.All, and_assoc]

theorem all_else {o : Option Tree} : (∀ s ∈ underElse o, p s) ↔ ∀ e, o = some e → e.All p := by
  cases o with
  | none => simp [underElse]
  | some e => simp [underElse, Tree.All]

theorem all_isIn {neg : Bool} {l : List Tree} :
    (Tree.isIn neg a l).All p ↔ p (.isIn neg a l) ∧ a.All p ∧ ∀ t ∈ l, t.All p := by
  rw [all_iff, Tree.under, List.forall_mem_append, all_list]
  rfl

theorem all_call {name : Text} {distinct : Bool} {l : List Tree} :
    (Tree.call name distinct l).All p ↔ p (.call name distinct l) ∧ ∀ t ∈ l, t.All p := by
  rw [all_iff, Tree.under, all_list]

theorem all_case {whens : List (Tree × Tree)} {els : Option Tree} :
    (Tree.case whens els).All p ↔ p (.case whens els) ∧
      (∀ w ∈ whens, w.1.All p ∧ w.2.All p) ∧ ∀ e, els = some e → e.All p := by
  rw [all_iff, Tree.under, List.forall_mem_append, all_whens, all_else]

end

mutual

/-- What holds everywhere in a tree holds everywhere in its trees. -/
theorem Tree.all_all {p : Tree → Prop} : (t : Tree) → t.All p → t.All fun s => s.All p
  | .null, h | .bool _, h | .placeholder _, h | .literal _, h | .ident _, h | .int _, h
  | .column _, h | .qualified _ _, h | .countAll, h | .negative _, h | .exists _ _, h
  | .scalar _, h => all_iff.2 ⟨h, nofun⟩
  | .castRaw a _, h | .collate a _, h | .neg a, h | .is _ a, h | .exprNot a, h | .condNot a, h
  | .prefixOp _ a, h | .inQuery _ a _, h | .eqAnyQuery a _, h | .neAllQuery a _, h =>
    (all_one rfl).2 ⟨h, a.all_all ((all_one rfl).1 h).2⟩
  | .dot a b, h | .index a b, h | .bin _ a b, h | .like _ _ a b, h | .compare _ a b, h
  | .eqAny a b, h | .neAll a b, h | .distinctFrom _ a b, h | .and a b, h | .or a b, h
  | .binaryOp _ a b, h =>
    have hu := (all_two rfl).1 h
    (all_two rfl).2 ⟨h, a.all_all hu.2.1, b.all_all hu.2.2⟩
  | .between _ a b c, h =>
    have hu := (all_three rfl).1 h
    (all_three rfl).2 ⟨h, a.all_all hu.2.1, b.all_all hu.2.2.1, c.all_all hu.2.2.2⟩
  | .isIn _ a l, h =>
    have hu := all_isIn.1 h
    all_isIn.2 ⟨h, a.all_all hu.2.1, all_allList l hu.2.2⟩
  | .call _ _ l, h => all_call.2 ⟨h, all_allList l (all_call.1 h).2⟩
  | .case whens els, h =>
    have hu := all_case.1 h
    all_case.2 ⟨h, all_allWhens whens hu.2.1, all_allElse els hu.2.2⟩

theorem all_allList {p : Tree → Prop} : (l : List Tree) → (∀ t ∈ l, t.All p) →
    ∀ t ∈ l, t.All fun s => s.All p
  | [], _ => nofun
  | t :: l, h => List.forall_mem_cons.2 ⟨t.all_all (h t (.head _)),
      all_allList l fun s hs => h s (.tail _ hs)⟩

theorem all_allWhens {p : Tree → Prop} : (l : List (Tree × Tree)) →
    (∀ w ∈ l, w.1.All p ∧ w.2.All p) →
    ∀ w ∈ l, (w.1.All fun s => s.All p) ∧ w.2.All fun s => s.All p
  | [], _ => nofun
  | (c, r) :: l, h => List.forall_mem_cons.2
    ⟨⟨c.all_all (h (c, r) (.head _)).1, r.all_all (h (c, r) (.head _)).2⟩,
      all_allWhens l fun w hw => h w (.tail _ hw)⟩

theorem all_allElse {p : Tree → Prop} : (o : Option Tree) → (∀ e, o = some e → e.All p) →
    ∀ e, o = some e → e.All fun s => s.All p
  | none, _ => nofun
  | some e, h => fun _ he => by cases he; exact e.all_all (h e rfl)

end

/-! ## Kinds of trees -/

def Tree.isInt : Tree → Bool
  | .int _ => true
  | _ => false

def Tree.isNumber : Tree → Bool
  | .int _ | .negative _ => true
  | _ => false

def Tree.isBinaryOp : Tree → Bool
  | .binaryOp _ _ _ => true
  | _ => false

/-- The root stands on a query. -/
def Tree.onQuery : Tree → Bool
  | .exists _ _ | .scalar _ | .inQuery _ _ _ | .eqAnyQuery _ _ | .neAllQuery _ _ => true
  | _ => false

/-- A value or a named operator, on no query; the negative integers count as operators. -/
def Tree.isNamed : Tree → Bool
  | .negative _ | .prefixOp _ _ | .binaryOp _ _ _ => false
  | t => !t.onQuery

/-! ## What the API does not check -/

/-- The name of a column: a plain identifier that is no key word. -/
def isColumnName (name : Text) : Bool := isPlainIdentifier name && isName name

/-- No part of a dot-qualified name is a key word. -/
def isPathName (name : Text) : Bool := (dotParts name).all isName

/-- The names of the root are names. -/
def Tree.namesOk : Tree → Bool
  | .column name => isColumnName name
  | .qualified table col => isPathName table && isColumnName col
  | .castRaw _ type => isPlainIdentifier type
  | .call name _ _ => isPathName name
  | _ => true

/-- The last part of a dot-qualified name may be called: it is not one of the few key words that
name a column and no function. -/
def isFunctionName (name : Text) : Bool := (dotParts name).getLast?.all fun f => isCallee (.word f)

/-- The function that the root calls, if any, may be called. -/
def Tree.callable : Tree → Bool
  | .call name _ _ => isFunctionName name
  | _ => true

/-- The names of a tree are names. -/
def Tree.Named (t : Tree) : Prop := t.All fun s => s.namesOk = true

/-- The text of the tree begins with the sign of a number. -/
def Tree.signed : Tree → Bool
  | .negative _ | .index (.negative _) _ => true
  | _ => false

/-- The root writes no sign in front of a sign, and no point next to a number. -/
def Tree.intactAt : Tree → Bool
  | .neg a => !a.signed
  | .dot a b => !a.isNumber && !b.isInt
  | _ => true

/-- No number of the tree meets a sign or a point. -/
def Tree.Intact (t : Tree) : Prop := t.All fun s => s.intactAt = true

mutual

def Tree.WF : Tree → Prop
  | .column name => isColumnName name = true
  | .qualified table column => isPathName table = true ∧ isColumnName column = true
  | .dot a b => a.WF ∧ b.WF ∧ a.isInt = false ∧ b.isInt = false
  | .castRaw a type => a.WF ∧ isPlainIdentifier type = true
  | .index a b | .bin _ a b | .like _ _ a b | .compare _ a b | .eqAny a b | .neAll a b
  | .distinctFrom _ a b | .and a b | .or a b => a.WF ∧ b.WF
  | .collate a _ | .neg a | .is _ a | .exprNot a | .condNot a => a.WF
  | .between _ a b c => a.WF ∧ b.WF ∧ c.WF
  | .isIn _ a values => a.WF ∧ wfTrees values
  | .call name _ args => isPathName name = true ∧ wfTrees args
  | .case whens els => wfTreeWhens whens ∧ wfTreeElse els
  | .negative _ | .prefixOp _ _ | .binaryOp _ _ _ | .exists _ _ | .scalar _ | .inQuery _ _ _
  | .eqAnyQuery _ _ | .neAllQuery _ _ => False
  | _ => True

def wfTrees : List Tree → Prop
  | [] => True
  | t :: l => t.WF ∧ wfTrees l

def wfTreeWhens : List (Tree × Tree) → Prop
  | [] => True
  | (c, r) :: l => c.WF ∧ r.WF ∧ wfTreeWhens l

def wfTreeElse : Option Tree → Prop
  | none => True
  | some e => e.WF

end

/-! ## Meaning -/

/-- `x` as a member of `recv`. -/
def link : Option Sql → Sql → Sql
  | none, x => x
  | some a, x => .dot a x

/-- Names with dots between them, as members of `recv`; `last` is what the last one names. -/
def path (last : Text → Sql) : Option Sql → List Text → Sql
  | recv, [] => link recv (last [])
  | recv, [p] => link recv (last p)
  | recv, p :: q :: l => path last (some (link recv (.column p))) (q :: l)

mutual

/-- What the tree means, as a member of `recv`. A dot-qualified function name spells the path it
is: `a.f()` is the member `f()` of `a`. -/
def Tree.meaning (recv : Option Sql) : Tree → Sql
  | .call name distinct args => path (.call · distinct (meanings args)) recv (dotParts name)
  | .dot a b => link recv (b.meaning (some (a.meaning none)))
  | .null => link recv .null
  | .bool value => link recv (.bool value)
  | .placeholder n => link recv (.param (natToString (n + 1)))
  | .literal value => link recv (.string value)
  | .ident name => link recv (.quoted name)
  | .int value => link recv (.number (natToString value))
  | .column name => link recv (.column name)
  | .qualified table column => link recv (path .column none (dotParts table ++ [column]))
  | .countAll => link recv (.callStar "COUNT".toList)
  | .castRaw a type => link recv (.cast (a.meaning none) type)
  | .index a b => link recv (.index (a.meaning none) (b.meaning none))
  | .collate a coll => link recv (.collate (a.meaning none) coll.name)
  | .neg a => link recv (.pre "-".toList (a.meaning none))
  | .bin op a b => link recv (.bin op.name (a.meaning none) (b.meaning none))
  | .between neg a b c =>
    link recv (.between neg (a.meaning none) (b.meaning none) (c.meaning none))
  | .like op neg a b => link recv (.like op neg (a.meaning none) (b.meaning none))
  | .isIn neg a values => link recv (.inList neg (a.meaning none) (meanings values))
  | .compare op a b => link recv (.bin op.name (a.meaning none) (b.meaning none))
  | .eqAny a b => link recv (.quant "=".toList false (a.meaning none) (b.meaning none))
  | .neAll a b => link recv (.quant "<>".toList true (a.meaning none) (b.meaning none))
  | .is op a => link recv (.is op.negated op.test (a.meaning none))
  | .distinctFrom neg a b => link recv (.distinctFrom neg (a.meaning none) (b.meaning none))
  | .exprNot a | .condNot a => link recv (.not (a.meaning none))
  | .and a b => link recv (.and (a.meaning none) (b.meaning none))
  | .or a b => link recv (.or (a.meaning none) (b.meaning none))
  | .case whens els => link recv (.case (meaningWhens whens) (meaningElse els))
  | .negative n => link recv (.pre "-".toList (.number (natToString (n + 1))))
  | .prefixOp op a => link recv (.pre op (a.meaning none))
  | .binaryOp op a b => link recv (.bin op (a.meaning none) (b.meaning none))
  | .exists neg q => link recv (if neg then .not (.exists q.tokens) else .exists q.tokens)
  | .scalar q => link recv (.subquery q.tokens)
  | .inQuery neg a q => link recv (.inQuery neg (a.meaning none) q.tokens)
  | .eqAnyQuery a q => link recv (.quantQuery "=".toList false (a.meaning none) q.tokens)
  | .neAllQuery a q => link recv (.quantQuery "<>".toList true (a.meaning none) q.tokens)

def meanings : List Tree → List Sql
  | [] => []
  | t :: l => t.meaning none :: meanings l

def meaningWhens : List (Tree × Tree) → List (Sql × Sql)
  | [] => []
  | (c, r) :: l => (c.meaning none, r.meaning none) :: meaningWhens l

def meaningElse : Option Tree → Option Sql
  | none => none
  | some e => some (e.meaning none)

end

/-- The syntax tree a tree stands for. -/
def Tree.toSql (t : Tree) : Sql := t.meaning none

end IronQuery
