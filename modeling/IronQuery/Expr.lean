import IronQuery.Impl.Identifier
import IronQuery.Impl.Node
import IronQuery.Impl.Render

/-!
# Expressions and conditions (`expr.cpp`, `condition.cpp` and the small values around them)

The overloads that take a table (`In`, `EqAny`, `Exists`, …) are in `IronQuery.VirtualTable`, behind
the tables.
-/

namespace IronQuery

structure Expr where
  node : Node

structure Condition where
  node : Node

open OperatorPrecedence

/-! ## Text -/

namespace Expr

def toString (e : Expr) : Text := render e.node

def extract (e : Expr) (precedence : OperatorPrecedence) : Text :=
  renderWithContext e.node precedence

end Expr

namespace Condition

def toString (c : Condition) : Text := render c.node

def extract (c : Condition) (precedence : OperatorPrecedence) : Text :=
  renderWithContext c.node precedence

/-- `Condition::operator Expr`. -/
def toExpr (c : Condition) : Expr := ⟨c.node⟩

def fromRaw (s : Text) : Condition := ⟨makeLeaf s kSymbol⟩

end Condition

/-! ## Atoms -/

/-- The digits of a number. -/
structure Digits where
  val : Text
  nonempty : val ≠ []
  digits : val.all Char.isDigit = true

/-- A double: not finite (with its `std::to_string`), or as `std::to_chars` writes it, in the
shortest form that reads back. -/
inductive Double
  | nonFinite (text : Text)
  | finite (negative : Bool) (whole : Digits) (fraction : Option Digits)
      (exponent : Option (Bool × Digits))

/-- `std::to_chars` of a finite double. -/
def toChars (negative : Bool) (whole : Digits) (fraction : Option Digits)
    (exponent : Option (Bool × Digits)) : Text :=
  (if negative then ['-'] else []) ++ whole.val ++
    (match fraction with
      | some f => '.' :: f.val
      | none => []) ++
    match exponent with
      | some (neg, e) => 'e' :: (if neg then '-' else '+') :: e.val
      | none => []

namespace Expr

/-- `Expr(std::string)` and `Expr(std::string, OperatorPrecedence)`. -/
def fromRaw (s : Text) (precedence : OperatorPrecedence := kSymbol) : Expr :=
  ⟨makeLeaf s precedence⟩

/-- Both overloads of `FromInteger`, at the signed and the unsigned 64-bit type. -/
def fromInteger (value : Int) : Expr := fromRaw (intToString value)

def fromDouble : Double → Result Expr
  | .nonFinite text =>
    .error (.invalidLiteral (text ++ ": NaN and infinity have no plain SQL literal".toList))
  | .finite negative whole fraction exponent =>
    let s := toChars negative whole fraction exponent
    -- a bare "1" would be an integer literal
    .ok (fromRaw (if s.contains '.' || s.contains 'e' then s else s ++ ".0".toList))

/-- The escaping loop of `Literal` and `Ident`: the value between two `q`, each `q` doubled. -/
def escaped (q : Char) (value : Text) : Text :=
  value.foldl (fun s c => (if c == q then s ++ [q] else s) ++ [c]) [q] ++ [q]

def literal (value : Text) : Result Expr :=
  if value.contains '\x00' then
    .error (.invalidLiteral "string literal must not contain NUL bytes".toList)
  else .ok (fromRaw (escaped '\'' value))

def ident (name : Text) : Result Expr :=
  if name.contains '\x00' then
    .error (.invalidIdentifier "<identifier containing a NUL byte>".toList)
  else .ok (fromRaw (escaped '"' name))

def null : Expr := fromRaw "NULL".toList

def bool (value : Bool) : Expr := fromRaw (if value then "TRUE".toList else "FALSE".toList)

end Expr

namespace placeholders

def _1 : Expr := .fromRaw "$1".toList
def _2 : Expr := .fromRaw "$2".toList
def _3 : Expr := .fromRaw "$3".toList
def _4 : Expr := .fromRaw "$4".toList
def _5 : Expr := .fromRaw "$5".toList
def _6 : Expr := .fromRaw "$6".toList
def _7 : Expr := .fromRaw "$7".toList
def _8 : Expr := .fromRaw "$8".toList
def _9 : Expr := .fromRaw "$9".toList
def _10 : Expr := .fromRaw "$10".toList

end placeholders

/-- There is a first placeholder. -/
instance neZeroPlaceholders : NeZero 10 := ⟨by decide⟩

/-- The placeholders by their place. -/
def placeholder (n : Fin 10) : Expr :=
  open placeholders in [_1, _2, _3, _4, _5, _6, _7, _8, _9, _10].get n

/-- A column of a table; its type and nullability are not rendered. -/
structure Column where
  name : Text
  deriving DecidableEq, Repr

/-- `Column::operator Expr` and `Column::ToExpr`. -/
def Column.toExpr (c : Column) : Expr := .fromRaw c.name

structure Collation where
  name : Text
  deriving DecidableEq, Repr

namespace Collation

def fromRaw (name : Text) : Collation := ⟨name⟩
def toString (c : Collation) : Text := c.name
def default : Collation := fromRaw "\"default\"".toList
def c : Collation := fromRaw "\"C\"".toList
def posix : Collation := fromRaw "\"POSIX\"".toList

end Collation

/-! ## Operators -/

/-- `ChildRef` of an expression. -/
def Expr.child (e : Expr) (context : OperatorPrecedence) : Part := .childRef e.node context

def Condition.child (c : Condition) (context : OperatorPrecedence) : Part :=
  .childRef c.node context

namespace Expr

/-- The arguments between commas. -/
def commaParts : List Expr → List Part
  | [] => []
  | [a] => [a.child kExtract]
  | a :: b :: l => a.child kExtract :: .text ", ".toList :: commaParts (b :: l)

def ensureNonEmptyArgs (args : List Expr) (name : Text) : Result Unit :=
  if args.length = 0 then
    .error (.invalidArgument (name ++ "() needs at least one argument".toList))
  else .ok ()

def buildCallNode (name argsPrefix : Text) (args : List Expr) : Node :=
  makeNode kSymbol
    (.text (name ++ "(".toList ++ argsPrefix) :: commaParts args ++ [.text ")".toList])

def call (name : Text) (args : List Expr) : Result Expr := do
  validateIdentifier name
  return ⟨buildCallNode name [] args⟩

def callDistinct (name : Text) (args : List Expr) : Result Expr := do
  validateIdentifier name
  ensureNonEmptyArgs args name
  return ⟨buildCallNode name "DISTINCT ".toList args⟩

def coalesce (args : List Expr) : Result Expr := do
  ensureNonEmptyArgs args "COALESCE".toList
  call "COALESCE".toList args

def nullIf (a b : Expr) : Result Expr := call "NULLIF".toList [a, b]

def greatest (args : List Expr) : Result Expr := do
  ensureNonEmptyArgs args "GREATEST".toList
  call "GREATEST".toList args

def least (args : List Expr) : Result Expr := do
  ensureNonEmptyArgs args "LEAST".toList
  call "LEAST".toList args

def prefixOp (op : Text) (operand : Expr) (precedence : OperatorPrecedence := kUnaryPlus) :
    Result Expr := do
  validateOperatorName op
  return ⟨makeNode precedence [.text (op ++ " ".toList), operand.child precedence]⟩

def count (arg : Expr) : Result Expr := call "COUNT".toList [arg]
def countAll : Expr := fromRaw "COUNT(*)".toList
def countDistinct (arg : Expr) : Result Expr := callDistinct "COUNT".toList [arg]
def sum (arg : Expr) : Result Expr := call "SUM".toList [arg]
def avg (arg : Expr) : Result Expr := call "AVG".toList [arg]
def min (arg : Expr) : Result Expr := call "MIN".toList [arg]
def max (arg : Expr) : Result Expr := call "MAX".toList [arg]

def dot (e other : Expr) : Expr :=
  ⟨makeNode kDot [e.child kDot, .text ".".toList, other.child kDot]⟩

def castRaw (e : Expr) (type : Text) : Expr :=
  ⟨makeNode kTypecast [.text "CAST (".toList, e.child kTypecast,
    .text (" AS ".toList ++ type ++ ")".toList)]⟩

def collate (e : Expr) (collation : Collation) : Expr :=
  ⟨makeNode kCollate [e.child kCollate, .text (" COLLATE ".toList ++ collation.toString)]⟩

/-- `operator[]`. -/
def index (e other : Expr) : Expr :=
  ⟨makeNode kIndex [e.child kIndex, .text "[".toList, other.child kExtract, .text "]".toList]⟩

/-- The node of two operands around an operator's name. -/
def binaryNode (precedence : OperatorPrecedence) (op : Text) (a b : Expr) : Node :=
  makeNode precedence [a.child precedence, .text (" ".toList ++ op ++ " ".toList),
    b.child precedence]

def binaryOp (e : Expr) (op : Text) (other : Expr)
    (precedence : OperatorPrecedence := kAnyOther) : Result Expr := do
  validateOperatorName op
  return ⟨binaryNode precedence op e other⟩

/-- `operator^`. -/
def exp (e other : Expr) : Result Expr := e.binaryOp "^".toList other kExp
/-- `operator+`. -/
def add (e other : Expr) : Result Expr := e.binaryOp "+".toList other kPlus
/-- `operator-`. -/
def sub (e other : Expr) : Result Expr := e.binaryOp "-".toList other kPlus
/-- `operator*`. -/
def mul (e other : Expr) : Result Expr := e.binaryOp "*".toList other kMul
/-- `operator/`. -/
def div (e other : Expr) : Result Expr := e.binaryOp "/".toList other kMul
/-- `operator%`. -/
def mod (e other : Expr) : Result Expr := e.binaryOp "%".toList other kMul
def concat (e other : Expr) : Result Expr := e.binaryOp "||".toList other kAnyOther

/-- Unary `operator-`. -/
def neg (e : Expr) : Expr := ⟨makeNode kUnaryPlus [.text "-".toList, e.child kUnaryPlus]⟩

/-- `operator!`. -/
def not (e : Expr) : Expr := ⟨makeNode kNot [.text "NOT ".toList, e.child kNot]⟩

/-- The node of a predicate with its own `AND`. -/
def betweenNode (connector : Text) (e a b : Expr) : Condition :=
  ⟨makeNode kBetween [e.child kBetween, .text connector, a.child kBetween, .text " AND ".toList,
    b.child kBetween]⟩

def between (e a b : Expr) : Condition := betweenNode " BETWEEN ".toList e a b
def notBetween (e a b : Expr) : Condition := betweenNode " NOT BETWEEN ".toList e a b

/-- The node of a pattern match. -/
def likeNode (connector : Text) (e a : Expr) : Condition :=
  ⟨makeNode kBetween [e.child kBetween, .text connector, a.child kBetween]⟩

def like (e a : Expr) : Condition := likeNode " LIKE ".toList e a
def notLike (e a : Expr) : Condition := likeNode " NOT LIKE ".toList e a
def iLike (e a : Expr) : Condition := likeNode " ILIKE ".toList e a
def notILike (e a : Expr) : Condition := likeNode " NOT ILIKE ".toList e a
def similarTo (e a : Expr) : Condition := likeNode " SIMILAR TO ".toList e a
def notSimilarTo (e a : Expr) : Condition := likeNode " NOT SIMILAR TO ".toList e a

def buildInListNode (self : Expr) (connector : Text) (values : List Expr) : Result Condition :=
  if values.length = 0 then .error (.invalidArgument "IN () needs at least one value".toList)
  else .ok ⟨makeNode kBetween (self.child kBetween :: .text connector :: .text "(".toList ::
    (commaParts values ++ [.text ")".toList]))⟩

def isIn (e : Expr) (values : List Expr) : Result Condition :=
  buildInListNode e " IN ".toList values
def notIn (e : Expr) (values : List Expr) : Result Condition :=
  buildInListNode e " NOT IN ".toList values

/-- The node of a comparison with an array. -/
def quantNode (connector : Text) (e array : Expr) : Condition :=
  ⟨makeNode kCompare [e.child kCompare, .text connector, array.child kExtract, .text ")".toList]⟩

def eqAny (e array : Expr) : Condition := quantNode " = ANY (".toList e array
def neAll (e array : Expr) : Condition := quantNode " <> ALL (".toList e array

/-- The node of an `IS` test. -/
def isNode (test : Text) (e : Expr) : Condition :=
  ⟨makeNode kIs [e.child kIs, .text test]⟩

def isTrue (e : Expr) : Condition := isNode " IS TRUE".toList e
def isFalse (e : Expr) : Condition := isNode " IS FALSE".toList e
def isNull (e : Expr) : Condition := isNode " IS NULL".toList e
def isNotNull (e : Expr) : Condition := isNode " IS NOT NULL".toList e

/-- The node of a distinctness test. -/
def distinctNode (connector : Text) (e other : Expr) : Condition :=
  ⟨makeNode kIs [e.child kIs, .text connector, other.child kIs]⟩

def isDistinctFrom (e other : Expr) : Condition :=
  distinctNode " IS DISTINCT FROM ".toList e other
def isNotDistinctFrom (e other : Expr) : Condition :=
  distinctNode " IS NOT DISTINCT FROM ".toList e other

def compareOp (a : Expr) (op : Text) (b : Expr) : Condition := ⟨binaryNode kCompare op a b⟩

/-- `operator<`. -/
def lt (a b : Expr) : Condition := compareOp a "<".toList b
/-- `operator<=`. -/
def le (a b : Expr) : Condition := compareOp a "<=".toList b
/-- `operator>`. -/
def gt (a b : Expr) : Condition := compareOp a ">".toList b
/-- `operator>=`. -/
def ge (a b : Expr) : Condition := compareOp a ">=".toList b
/-- `operator==`. -/
def eq (a b : Expr) : Condition := compareOp a "=".toList b
/-- `operator!=`. -/
def ne (a b : Expr) : Condition := compareOp a "!=".toList b

end Expr

namespace Condition

/-- `operator&&`. -/
def and (c other : Condition) : Condition :=
  ⟨makeNode kAnd [c.child kAnd, .text " AND ".toList, other.child kAnd]⟩

/-- `operator||`. -/
def or (c other : Condition) : Condition :=
  ⟨makeNode kOr [c.child kOr, .text " OR ".toList, other.child kOr]⟩

/-- `operator!`. -/
def not (c : Condition) : Condition :=
  ⟨makeNode kNot [.text "NOT ".toList, c.child kNot]⟩

end Condition

/-! ## Terms of a clause -/

structure SelectItem where
  s_ : Text
  deriving DecidableEq, Repr

def SelectItem.toString (item : SelectItem) : Text := item.s_

/-- The constructor from a value that converts to an expression. -/
def Expr.toSelectItem (e : Expr) : SelectItem := ⟨e.toString⟩

/-- A column alias cannot be dot-qualified. -/
def Expr.as (e : Expr) (name : Text) : Result SelectItem :=
  if !isPlainIdentifier name then .error (.invalidIdentifier name)
  else .ok ⟨e.toString ++ " AS ".toList ++ name⟩

def Column.as (c : Column) (aliasName : Text) : Result SelectItem := c.toExpr.as aliasName

inductive SortDirection
  | kAscending
  | kDescending
  deriving DecidableEq, Repr

inductive NullsOrder
  | kDefault
  | kFirst
  | kLast
  deriving DecidableEq, Repr

structure OrderByTerm where
  expr : Expr
  direction : SortDirection := .kAscending
  nullsOrder : NullsOrder := .kDefault

/-- `RenderTerm` of an `ORDER BY` term. -/
def OrderByTerm.render (term : OrderByTerm) : Text :=
  term.expr.toString ++
    (match term.direction with
      | .kDescending => " DESC".toList
      | .kAscending => []) ++
    match term.nullsOrder with
      | .kFirst => " NULLS FIRST".toList
      | .kLast => " NULLS LAST".toList
      | .kDefault => []

/-! ## Qualified columns -/

structure TableAlias where
  alias_ : Text
  deriving DecidableEq, Repr

def TableAlias.from (name : Text) : Result TableAlias := do
  validateIdentifier name
  return ⟨name⟩

/-- `Dot(std::string)`. -/
def TableAlias.dot (t : TableAlias) (column : Text) : Expr :=
  .fromRaw (t.alias_ ++ ".".toList ++ column) kDot

/-- `Dot(Column)`. -/
def TableAlias.dotColumn (t : TableAlias) (column : Column) : Expr := t.dot column.name

/-! ## CASE -/

structure CaseBuilder where
  whens_ : Text := []
  pendingWhen_ : Text := []
  else_ : Text := []
  hasPendingWhen_ : Bool := false
  deriving DecidableEq, Repr

def CaseBuilder.when (b : CaseBuilder) (cond : Condition) : Outcome CaseBuilder :=
  if b.hasPendingWhen_ then
    .throw (.logicError "When() called twice without a matching Then()".toList) b
  else .ok { b with pendingWhen_ := cond.toString, hasPendingWhen_ := true }

def CaseBuilder.then (b : CaseBuilder) (result : Expr) : Outcome CaseBuilder :=
  if !b.hasPendingWhen_ then
    .throw (.logicError "Then() called without a preceding When()".toList) b
  else
    let fragment := "WHEN ".toList ++ b.pendingWhen_ ++ " THEN ".toList ++ result.toString ++ [' ']
    .ok { b with whens_ := b.whens_ ++ fragment, hasPendingWhen_ := false }

def CaseBuilder.else (b : CaseBuilder) (result : Expr) : Outcome CaseBuilder :=
  .ok { b with else_ := result.toString }

def CaseBuilder.end (b : CaseBuilder) : Result Expr :=
  if b.whens_.isEmpty then
    .error (.logicError "CASE requires at least one When()/Then() pair".toList)
  else
    let s := "CASE ".toList ++ b.whens_
    let s := if !b.else_.isEmpty then s ++ ("ELSE ".toList ++ b.else_ ++ " ".toList) else s
    .ok (.fromRaw (s ++ "END".toList))

/-- `Case()`. -/
def case : CaseBuilder := {}

end IronQuery
