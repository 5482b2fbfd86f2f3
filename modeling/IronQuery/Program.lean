import IronQuery.Tree
import IronQuery.Pg.Proof.Piece

/-!
# Programs of the API

`Program t` is a program that builds a value of the type `t` with the public entry points, with
holes where an expression is still missing; `run` makes its calls, with the expression that stands
in the holes. `ToString` of a statement is a call like the others (`Ty.text`).

`Program.leaves` lists what the rendering depends on besides the calls: the strings, told apart by
whether the library escapes or checks them, the holes, and each unary minus with the answer to
whether its operand starts with a minus too. `Program.kept` counts the holes whose text no
later call throws away.
-/

namespace IronQuery

open OperatorPrecedence Pg

/-! ## Types -/

inductive Ty
  | expr | condition | selectItem | orderByTerm
  /-- A column and the value it is set to. -/
  | assignment
  | caseBuilder | table | tableWithColumns | join | setOp | select | deleteFrom | virtualTable
  | insertInto | update | withBuilder | withQuery | text
  | list (t : Ty)

def Ty.Val : Ty → Type
  | expr => Expr
  | condition => Condition
  | selectItem => SelectItem
  | orderByTerm => OrderByTerm
  | assignment => Expr × Expr
  | caseBuilder => CaseBuilder
  | table => Table
  | tableWithColumns => TableWithColumns
  | join => Join
  | setOp => SetOp
  | select => SelectExpr
  | deleteFrom => DeleteFrom
  | virtualTable => VirtualTable
  | insertInto => InsertInto
  | update => Update
  | withBuilder => WithBuilder
  | withQuery => WithQuery
  | text => Text
  | list t => List t.Val

/-! ## Families of calls -/

/-- The expressions made of no other. -/
inductive Atom
  | null
  | bool (value : Bool)
  | placeholder (n : Fin 10)
  | integer (value : Int)
  | double (value : Double)
  | literal (value : Text)
  | ident (name : Text)
  | countAll
  | column (name : Text)
  /-- `TableAlias::From(alias).Dot(column)`. -/
  | dot (aliasName column : Text)
  | raw (s : Text) (precedence : OperatorPrecedence)

def Atom.build : Atom → Result Expr
  | null => .ok .null
  | bool value => .ok (.bool value)
  | placeholder n => .ok (IronQuery.placeholder n)
  | integer value => .ok (.fromInteger value)
  | double value => Expr.fromDouble value
  | literal value => Expr.literal value
  | ident name => Expr.ident name
  | countAll => .ok .countAll
  | column name => .ok (Column.toExpr ⟨name⟩)
  | dot aliasName col => do
    let t ← TableAlias.from aliasName
    return t.dot col
  | raw s precedence => .ok (.fromRaw s precedence)

/-- The functions of a list of arguments. -/
inductive Function
  | call (name : Text)
  | callDistinct (name : Text)
  | coalesce | greatest | least

def Function.apply : Function → List Expr → Result Expr
  | call name => Expr.call name
  | callDistinct name => Expr.callDistinct name
  | coalesce => Expr.coalesce
  | greatest => Expr.greatest
  | least => Expr.least

inductive Unary
  | neg | not
  | collate (collation : BuiltinCollation)
  | castRaw (type : Text)
  | prefixOp (op : Text) (precedence : OperatorPrecedence)
  | count | countDistinct | sum | avg | min | max

def Unary.apply : Unary → Expr → Result Expr
  | neg, e => .ok e.neg
  | not, e => .ok e.not
  | collate coll, e => .ok (e.collate coll.collation)
  | castRaw type, e => .ok (e.castRaw type)
  | prefixOp op precedence, e => Expr.prefixOp op e precedence
  | count, e => Expr.count e
  | countDistinct, e => Expr.countDistinct e
  | sum, e => Expr.sum e
  | avg, e => Expr.avg e
  | min, e => Expr.min e
  | max, e => Expr.max e

inductive Binary
  | dot | index
  | named (op : BinOp)
  | binaryOp (op : Text) (precedence : OperatorPrecedence)
  | nullIf

def Binary.apply : Binary → Expr → Expr → Result Expr
  | dot, a, b => .ok (a.dot b)
  | index, a, b => .ok (a.index b)
  | named op, a, b => op.apply a b
  | binaryOp op precedence, a, b => a.binaryOp op b precedence
  | nullIf, a, b => Expr.nullIf a b

/-- The conditions of two expressions. -/
inductive Relation
  | like (op : LikeOp) (neg : Bool)
  | compare (op : CompareOp)
  | eqAny | neAll
  | distinctFrom (neg : Bool)

def Relation.apply : Relation → Expr → Expr → Condition
  | like op neg, a, b => applyLike op neg a b
  | compare op, a, b => op.apply a b
  | eqAny, a, b => a.eqAny b
  | neAll, a, b => a.neAll b
  | distinctFrom false, a, b => a.isDistinctFrom b
  | distinctFrom true, a, b => a.isNotDistinctFrom b

/-- The conditions of an expression and a subquery. -/
inductive SubqueryOp
  | isIn | notIn | eqAny | neAll

def SubqueryOp.apply : SubqueryOp → Expr → VirtualTable → Result Condition
  | isIn => Expr.inSubquery
  | notIn => Expr.notInSubquery
  | eqAny => Expr.eqAnySubquery
  | neAll => Expr.neAllSubquery

inductive Connective
  | and | or

def Connective.apply : Connective → Condition → Condition → Condition
  | and => Condition.and
  | or => Condition.or

/-! ## Programs -/

inductive Program : Ty → Type
  | hole : Program .expr
  | atom (a : Atom) : Program .expr
  | call (f : Function) (args : Program (.list .expr)) : Program .expr
  | unary (op : Unary) (a : Program .expr) : Program .expr
  | binary (op : Binary) (a b : Program .expr) : Program .expr
  /-- `Condition::operator Expr`. -/
  | ofCondition (c : Program .condition) : Program .expr
  /-- `VirtualTable::operator Expr`. -/
  | subquery (q : Program .virtualTable) : Program .expr
  | caseEnd (b : Program .caseBuilder) : Program .expr
  | selectArgAll (t : Program .tableWithColumns) : Program .expr
  | tableDot (t : Program .tableWithColumns) (column : Text) : Program .expr
  | rawCondition (s : Text) : Program .condition
  | relation (op : Relation) (a b : Program .expr) : Program .condition
  | test (op : IsOp) (a : Program .expr) : Program .condition
  | between (neg : Bool) (e a b : Program .expr) : Program .condition
  | isIn (neg : Bool) (e : Program .expr) (values : Program (.list .expr)) : Program .condition
  | subqueryOp (op : SubqueryOp) (e : Program .expr) (q : Program .virtualTable) :
    Program .condition
  | exists (neg : Bool) (q : Program .virtualTable) : Program .condition
  | connective (op : Connective) (c d : Program .condition) : Program .condition
  | conditionNot (c : Program .condition) : Program .condition
  | selectItem (e : Program .expr) : Program .selectItem
  | selectItemAs (e : Program .expr) (name : Text) : Program .selectItem
  | orderByTerm (e : Program .expr) (direction : SortDirection) (nulls : NullsOrder) :
    Program .orderByTerm
  | assignment (column value : Program .expr) : Program .assignment
  | nil {t : Ty} : Program (.list t)
  | cons {t : Ty} (x : Program t) (l : Program (.list t)) : Program (.list t)
  | caseNew : Program .caseBuilder
  | caseWhen (b : Program .caseBuilder) (c : Program .condition) : Program .caseBuilder
  | caseThen (b : Program .caseBuilder) (r : Program .expr) : Program .caseBuilder
  | caseElse (b : Program .caseBuilder) (r : Program .expr) : Program .caseBuilder
  | table (name : Text) : Program .table
  /-- `VirtualTable::As`. -/
  | aliased (q : Program .virtualTable) (name : Text) : Program .table
  | tableWithColumns (name : Text) (columns : List Column) : Program .tableWithColumns
  | aliasedColumns (t : Program .tableWithColumns) (name : Text) : Program .tableWithColumns
  /-- A `TableWithColumns` is a `Table`. -/
  | upcast (t : Program .tableWithColumns) : Program .table
  | ofTable (t : Program .table) : Program .virtualTable
  | ofTableWithColumns (t : Program .tableWithColumns) : Program .virtualTable
  | ofJoin (j : Program .join) : Program .virtualTable
  | ofSelect (s : Program .select) : Program .virtualTable
  | ofSetOp (s : Program .setOp) : Program .virtualTable
  | ofWith (w : Program .withQuery) : Program .virtualTable
  | ofDeleteFrom (d : Program .deleteFrom) : Program .virtualTable
  | join (a b : Program .virtualTable) (kind : JoinKind) : Program .join
  | joinOn (j : Program .join) (c : Program .condition) : Program .join
  | joinUsing (j : Program .join) (columns : Program (.list .expr)) : Program .join
  | setOp (a b : Program .virtualTable) (kind : SetOpKind) : Program .setOp
  | select (tbl : Program .virtualTable) : Program .select
  | distinct (s : Program .select) : Program .select
  | distinctOn (s : Program .select) (exps : Program (.list .expr)) : Program .select
  | selectItems (s : Program .select) (items : Program (.list .selectItem)) : Program .select
  | where (s : Program .select) (c : Program .condition) : Program .select
  | groupBy (s : Program .select) (exps : Program (.list .expr)) : Program .select
  | having (s : Program .select) (c : Program .condition) : Program .select
  | orderBy (s : Program .select) (terms : Program (.list .orderByTerm)) : Program .select
  | limit (s : Program .select) (n : Int) : Program .select
  | offset (s : Program .select) (n : Int) : Program .select
  | deleteFrom (t : Program .table) : Program .deleteFrom
  | deleteUsing (d : Program .deleteFrom) (tbl : Program .virtualTable) : Program .deleteFrom
  | deleteWhere (d : Program .deleteFrom) (c : Program .condition) : Program .deleteFrom
  | deleteReturning (d : Program .deleteFrom) (items : Program (.list .selectItem)) :
    Program .deleteFrom
  | insertInto (t : Program .table) : Program .insertInto
  | columns (s : Program .insertInto) (cols : Program (.list .expr)) : Program .insertInto
  | values (s : Program .insertInto) (vals : Program (.list .expr)) : Program .insertInto
  | rows (s : Program .insertInto) (rows : Program (.list (.list .expr))) : Program .insertInto
  | insertReturning (s : Program .insertInto) (items : Program (.list .selectItem)) :
    Program .insertInto
  | onConflictDoNothing (s : Program .insertInto) : Program .insertInto
  | onConflictDoNothingAt (s : Program .insertInto) (targetCols : Program (.list .expr)) :
    Program .insertInto
  | onConflictDoUpdate (s : Program .insertInto) (targetCols : Program (.list .expr))
    (assignments : Program (.list .assignment)) : Program .insertInto
  | update (t : Program .table) : Program .update
  | set (s : Program .update) (column value : Program .expr) : Program .update
  | updateFrom (s : Program .update) (tbl : Program .virtualTable) : Program .update
  | updateWhere (s : Program .update) (c : Program .condition) : Program .update
  | updateReturning (s : Program .update) (items : Program (.list .selectItem)) : Program .update
  /-- The free function `With`. -/
  | withNew (name : Text) (q : Program .virtualTable) : Program .withBuilder
  | with (b : Program .withBuilder) (name : Text) (q : Program .virtualTable) :
    Program .withBuilder
  | main (b : Program .withBuilder) (q : Program .virtualTable) : Program .withQuery
  | exprText (e : Program .expr) : Program .text
  | conditionText (c : Program .condition) : Program .text
  | virtualTableText (q : Program .virtualTable) : Program .text
  | insertText (s : Program .insertInto) : Program .text
  | updateText (s : Program .update) : Program .text

namespace Program

/-- The calls of the program, with `h` in its holes. -/
def run (h : Expr) {t : Ty} : Program t → Result t.Val
  | hole => .ok h
  | atom a => a.build
  | call f args => do f.apply (← args.run h)
  | unary op a => do op.apply (← a.run h)
  | binary op a b => do op.apply (← a.run h) (← b.run h)
  | ofCondition c => do return (← c.run h).toExpr
  | subquery q => do (← q.run h).toExpr
  | caseEnd b => do (← b.run h).end
  | selectArgAll t => do return (← t.run h).selectArgAll
  | tableDot t column => do (← t.run h).dot column
  | rawCondition s => .ok (Condition.fromRaw s)
  | relation op a b => do return op.apply (← a.run h) (← b.run h)
  | test op a => do return op.apply (← a.run h)
  | between neg e a b => do
    let e ← e.run h
    let a ← a.run h
    let b ← b.run h
    return if neg then e.notBetween a b else e.between a b
  | isIn neg e l => do
    let e ← e.run h
    let l ← l.run h
    if neg then e.notIn l else e.isIn l
  | subqueryOp op e q => do op.apply (← e.run h) (← q.run h)
  | .exists neg q => do
    let q ← q.run h
    if neg then Expr.notExists q else Expr.exists q
  | connective op c d => do return op.apply (← c.run h) (← d.run h)
  | conditionNot c => do return (← c.run h).not
  | selectItem e => do return (← e.run h).toSelectItem
  | selectItemAs e name => do (← e.run h).as name
  | orderByTerm e direction nulls => do return ⟨← e.run h, direction, nulls⟩
  | assignment column value => do return (← column.run h, ← value.run h)
  | nil => .ok []
  | cons x l => do
    let x ← x.run h
    let l ← l.run h
    return (show List _ from x :: l)
  | caseNew => .ok IronQuery.case
  | caseWhen b c => do ((← b.run h).when (← c.run h)).result
  | caseThen b r => do ((← b.run h).then (← r.run h)).result
  | caseElse b r => do ((← b.run h).else (← r.run h)).result
  | table name => .ok (Table.fromRaw name)
  | aliased q name => do (← q.run h).as name
  | tableWithColumns name cols => .ok (TableWithColumns.fromRaw name cols)
  | aliasedColumns t name => do (← t.run h).as name
  | upcast t => do return ⟨(← t.run h).name_⟩
  | ofTable t => do return .table (← t.run h)
  | ofTableWithColumns t => do return .tableWithColumns (← t.run h)
  | ofJoin j => do return .join (← j.run h)
  | ofSelect s => do return .select (← s.run h)
  | ofSetOp s => do return .setOp (← s.run h)
  | ofWith w => do return .with (← w.run h)
  | ofDeleteFrom d => do return .deleteFrom (← d.run h)
  | join a b kind => do Join.new (← a.run h) (← b.run h) kind
  | joinOn j c => do ((← j.run h).on (← c.run h)).result
  | joinUsing j cols => do ((← j.run h).using (← cols.run h)).result
  | setOp a b kind => do SetOp.new (← a.run h) (← b.run h) kind
  | select tbl => do SelectExpr.fromTable (← tbl.run h)
  | distinct s => do (← s.run h).distinct.result
  | distinctOn s exps => do ((← s.run h).distinctOn (← exps.run h)).result
  | selectItems s items => do ((← s.run h).select (← items.run h)).result
  | .where s c => do ((← s.run h).where (← c.run h)).result
  | groupBy s exps => do ((← s.run h).groupBy (← exps.run h)).result
  | having s c => do ((← s.run h).having (← c.run h)).result
  | orderBy s terms => do ((← s.run h).orderBy (← terms.run h)).result
  | limit s n => do ((← s.run h).limit n).result
  | offset s n => do ((← s.run h).offset n).result
  | deleteFrom t => do return DeleteFrom.new (← t.run h)
  | deleteUsing d tbl => do ((← d.run h).using (← tbl.run h)).result
  | deleteWhere d c => do ((← d.run h).where (← c.run h)).result
  | deleteReturning d items => do ((← d.run h).returning (← items.run h)).result
  | insertInto t => do return InsertInto.new (← t.run h)
  | columns s cols => do ((← s.run h).columns (← cols.run h)).result
  | values s vals => do ((← s.run h).values (← vals.run h)).result
  | rows s l => do ((← s.run h).rows (← l.run h)).result
  | insertReturning s items => do ((← s.run h).returning (← items.run h)).result
  | onConflictDoNothing s => do (← s.run h).onConflictDoNothing.result
  | onConflictDoNothingAt s cols => do ((← s.run h).onConflictDoNothingAt (← cols.run h)).result
  | onConflictDoUpdate s cols assignments => do
    ((← s.run h).onConflictDoUpdate (← cols.run h) (← assignments.run h)).result
  | update t => do return Update.new (← t.run h)
  | set s column value => do ((← s.run h).set (← column.run h) (← value.run h)).result
  | updateFrom s tbl => do ((← s.run h).from (← tbl.run h)).result
  | updateWhere s c => do ((← s.run h).where (← c.run h)).result
  | updateReturning s items => do ((← s.run h).returning (← items.run h)).result
  | withNew name q => do withCte name (← q.run h)
  | .with b name q => do ((← b.run h).with name (← q.run h)).result
  | main b q => do (← b.run h).main (← q.run h)
  | exprText e => do return (← e.run h).toString
  | conditionText c => do return (← c.run h).toString
  | virtualTableText q => do (← q.run h).toString
  | insertText s => do (← s.run h).toString
  | updateText s => do (← s.run h).toString

end Program

/-! ## A minus behind a minus -/

/-- The text starts with a minus, and stands under a unary minus without brackets. -/
def minusText (s : Text) (precedence : OperatorPrecedence) : Option OperatorPrecedence :=
  if precedence.toNat < kUnaryPlus.toNat ∧ s.head? = some '-' then some precedence else none

def Atom.minus : Atom → Option OperatorPrecedence
  | .integer value => minusText (intToString value) kSymbol
  | .double (.finite negative ..) => if negative then some kSymbol else none
  | .column s => minusText s kSymbol
  | .raw s precedence => minusText s precedence
  | _ => none

def Binary.precedence : Binary → OperatorPrecedence
  | dot => kDot
  | index => kIndex
  | named op => op.prec
  | binaryOp _ precedence => precedence
  | nullIf => kSymbol

/-- `FromRaw` of a text that starts with a minus. -/
def Program.rawMinus : Program .condition → Option OperatorPrecedence
  | rawCondition s => minusText s kSymbol
  | _ => none

/-- The columns that the table was given. -/
def Program.columnNames : Program .tableWithColumns → List Text
  | tableWithColumns _ cols => cols.map Column.name
  | aliasedColumns t _ => t.columnNames

/-- The precedence of an operand whose text a unary minus would put right behind its own `-`, and
that starts with a `-` itself. -/
def Program.minus : Program .expr → Option OperatorPrecedence
  | atom a => a.minus
  | ofCondition c => c.rawMinus
  | selectArgAll t => minusText (joinCsv t.columnNames) kSymbol
  | unary (.prefixOp op precedence) _ => minusText op precedence
  | binary op a _ =>
    match a.minus with
    | some p =>
      if p.toNat < op.precedence.toNat ∧ op.precedence.toNat < kUnaryPlus.toNat then
        some op.precedence
      else none
    | none => none
  | _ => none

/-! ## What a rendering depends on -/

inductive Leaf
  | hole
  /-- A value that the library escapes. -/
  | quoted (value : Text)
  /-- A text that the library neither escapes nor checks. -/
  | code (s : Text)
  /-- Such a text in the place of a table. -/
  | table (name : Text)
  /-- A unary minus; `glued`: its operand puts a minus right behind it. -/
  | minus (glued : Bool)
  deriving DecidableEq, Repr

def Atom.leaves : Atom → List Leaf
  | .literal v | .ident v => [.quoted v]
  | .column s | .dot _ s | .raw s _ => [.code s]
  | _ => []

def Unary.leaves : Unary → Program .expr → List Leaf
  | .neg, a => [.minus a.minus.isSome]
  | .castRaw type, _ => [.code type]
  | _, _ => []

namespace Program

def leaves {t : Ty} : Program t → List Leaf
  | hole => [.hole]
  | atom a => a.leaves
  | unary op a => op.leaves a ++ a.leaves
  | rawCondition s => [.code s]
  | table name => [.table name]
  | tableWithColumns name cols => .table name :: cols.map fun c => .code c.name
  | nil | caseNew => []
  | binary _ x y | relation _ x y | connective _ x y | assignment x y | cons x y | caseWhen x y
  | caseThen x y | caseElse x y | isIn _ x y | subqueryOp _ x y | join x y _ | joinOn x y
  | joinUsing x y | setOp x y _ | distinctOn x y | selectItems x y | .where x y | groupBy x y
  | having x y | orderBy x y | deleteUsing x y | deleteWhere x y | deleteReturning x y
  | columns x y | values x y | rows x y | insertReturning x y | onConflictDoNothingAt x y
  | updateFrom x y | updateWhere x y | updateReturning x y | .with x _ y | main x y =>
    x.leaves ++ y.leaves
  | between _ x y z | onConflictDoUpdate x y z | set x y z => x.leaves ++ (y.leaves ++ z.leaves)
  | call _ x | ofCondition x | subquery x | caseEnd x | selectArgAll x | tableDot x _ | test _ x
  | .exists _ x | conditionNot x | selectItem x | selectItemAs x _ | orderByTerm x _ _ | aliased x _
  | aliasedColumns x _ | upcast x | ofTable x | ofTableWithColumns x | ofJoin x | ofSelect x
  | ofSetOp x | ofWith x | ofDeleteFrom x | select x | distinct x | limit x _ | offset x _
  | deleteFrom x | insertInto x | onConflictDoNothing x | update x | withNew _ x | exprText x
  | conditionText x | virtualTableText x | insertText x | updateText x => x.leaves

end Program

/-- The character that stands for the value of a hole: no byte. -/
def mark : Char := Char.ofNat 256

def isBytes (s : Text) : Bool := s.all fun c => c.toNat < 256

/-- A text that closes its quotes, and outside them holds no comment, no quote right behind a letter
and no `$` but in a word or a parameter. -/
def isClosed (s : Text) : Bool := isBytes s && isFragment mark ready whole s

/-- The same of a text that does not start with a minus, nor end in a string constant. -/
def isTableName (s : Text) : Bool :=
  isClosed s && s.head? != some '-' && isFragment mark ready named s

/-- How many holes a value holds. -/
@[ext] structure Tally where
  all : Nat
  /-- In the `Else` of a `CASE` or the `ON CONFLICT` of an `INSERT`, which a second one replaces. -/
  replaced : Nat
  /-- In a `When` without its `Then`, which `End` leaves out. -/
  pending : Nat

namespace Tally

abbrev plain (n : Nat) : Tally := ⟨n, 0, 0⟩

/-- A `When` waits for its `Then`. -/
def awaiting (m n : Tally) : Tally := ⟨m.all + n.all, m.replaced, n.all⟩

/-- The call adds what stays. -/
def adding (m n : Tally) : Tally := ⟨m.all + n.all, m.replaced, 0⟩

/-- The call takes the place of what the last one of its kind added. -/
def replacing (m n : Tally) : Tally := ⟨m.all - m.replaced + n.all, n.all, m.pending⟩

end Tally

/-- A C++ string is made of bytes; what the library puts into the query unchecked is closed. -/
def Leaf.WF : Leaf → Prop
  | quoted value => isBytes value = true
  | code s => isClosed s = true
  | table name => isTableName name = true
  | _ => True

instance (l : Leaf) : Decidable l.WF := by
  cases l <;> unfold Leaf.WF <;> infer_instance

namespace Program

variable {t : Ty}

def WF (p : Program t) : Prop := ∀ l ∈ p.leaves, l.WF

/-- No unary minus has a minus right behind it. -/
def Unglued (p : Program t) : Prop := ∀ l ∈ p.leaves, l ≠ .minus true

def holes (p : Program t) : Nat := p.leaves.count .hole

/-- The holes that the built value still holds. -/
def tally {t : Ty} : Program t → Tally
  | hole => .plain 1
  | caseWhen x y => x.tally.awaiting y.tally
  | caseThen x y | columns x y | values x y | rows x y | insertReturning x y =>
    x.tally.adding y.tally
  | caseElse x y | onConflictDoNothingAt x y => x.tally.replacing y.tally
  | onConflictDoNothing x => x.tally.replacing (.plain 0)
  | onConflictDoUpdate x y z => x.tally.replacing (.plain (y.tally.all + z.tally.all))
  | caseEnd x => .plain (x.tally.all - x.tally.pending)
  | atom _ | rawCondition _ | table _ | tableWithColumns _ _ | aliasedColumns _ _ | nil
  | caseNew => .plain 0
  | binary _ x y | relation _ x y | connective _ x y | assignment x y | cons x y | isIn _ x y
  | subqueryOp _ x y | join x y _ | joinOn x y | joinUsing x y | setOp x y _ | distinctOn x y
  | selectItems x y | .where x y | groupBy x y | having x y | orderBy x y | deleteUsing x y
  | deleteWhere x y | deleteReturning x y | updateFrom x y | updateWhere x y
  | updateReturning x y | .with x _ y | main x y => .plain (x.tally.all + y.tally.all)
  | between _ x y z | set x y z => .plain (x.tally.all + (y.tally.all + z.tally.all))
  | call _ x | unary _ x | ofCondition x | subquery x | selectArgAll x | tableDot x _ | test _ x
  | .exists _ x | conditionNot x | selectItem x | selectItemAs x _ | orderByTerm x _ _ | aliased x _
  | upcast x | ofTable x | ofTableWithColumns x | ofJoin x | ofSelect x | ofSetOp x | ofWith x
  | ofDeleteFrom x | select x | distinct x | limit x _ | offset x _ | deleteFrom x | insertInto x
  | update x | withNew _ x | exprText x | conditionText x | virtualTableText x | insertText x
  | updateText x => .plain x.tally.all

def kept (p : Program t) : Nat := p.tally.all

instance (p : Program t) : Decidable p.WF := by unfold WF; infer_instance
instance (p : Program t) : Decidable p.Unglued := by unfold Unglued; infer_instance

end Program

end IronQuery
