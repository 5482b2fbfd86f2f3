import IronQuery.Expr

/-!
# Tables and the queries that stand for one (`virtual_table.cpp` and the classes derived from it)

The classes derived from `VirtualTable` hold text and expressions, never other tables, so a value of
the base class is one of seven records (`VirtualTable`), and the virtual functions are a case split.
The constructors and setters of the records are in `IronQuery.Builders`.
-/

namespace IronQuery

open OperatorPrecedence

/-! ## The records -/

structure Table where
  name_ : Text
  deriving DecidableEq, Repr

structure TableWithColumns where
  name_ : Text
  columns_ : List Column
  alias_ : Text := []
  deriving DecidableEq, Repr

structure Join where
  a_ : Text
  b_ : Text
  kind_ : Text
  natural_ : Bool
  on_ : Text := []
  using_ : Text := []
  deriving DecidableEq, Repr

structure SetOp where
  a_ : Text
  b_ : Text
  kind_ : Text
  deriving DecidableEq, Repr

structure DeleteFrom where
  from_ : Text
  using_ : Text := []
  where_ : Text := []
  returning_ : Text := []
  deriving DecidableEq, Repr

structure WithQuery where
  ctes_ : Text
  main_ : Text
  ctesFormatted_ : Text
  mainFormatted_ : Text
  deriving DecidableEq, Repr

structure SelectExpr where
  distinct_ : Bool := false
  distinctOn_ : Option (List Expr) := none
  from_ : Text
  select_ : Option (List SelectItem) := none
  where_ : Option Condition := none
  groupBy_ : Option (List Expr) := none
  having_ : Option Condition := none
  orderBy_ : Option (List OrderByTerm) := none
  limit_ : Option Int := none
  offset_ : Option Int := none

/-! ## Their text -/

def Table.toString (t : Table) : Text := t.name_

def Join.toString (j : Join) : Text :=
  let s := j.a_ ++ " ".toList ++ j.kind_ ++ " JOIN ".toList ++ j.b_
  let s := if !j.on_.isEmpty then s ++ (" ON ".toList ++ j.on_) else s
  if !j.using_.isEmpty then s ++ (" USING (".toList ++ j.using_ ++ ")".toList) else s

def SetOp.toString (s : SetOp) : Text := s.a_ ++ " ".toList ++ s.kind_ ++ " ".toList ++ s.b_

def DeleteFrom.toString (d : DeleteFrom) : Result Text :=
  if d.from_.isEmpty then .error (.logicError "FROM clause is not set".toList)
  else
    let s := "DELETE FROM ".toList ++ d.from_
    let s := if !d.using_.isEmpty then s ++ (" USING ".toList ++ d.using_) else s
    let s := if !d.where_.isEmpty then s ++ (" WHERE ".toList ++ d.where_) else s
    .ok (if !d.returning_.isEmpty then s ++ (" RETURNING ".toList ++ d.returning_) else s)

namespace WithQuery

def toString (w : WithQuery) : Text := "WITH ".toList ++ w.ctes_ ++ " ".toList ++ w.main_

def toStringFormatted (w : WithQuery) : Text :=
  "WITH\n".toList ++ indentBlock w.ctesFormatted_ 4 ++ "\n".toList ++ w.mainFormatted_

end WithQuery

namespace SelectExpr

/-- Joins rendered terms with `",\n"`, each on an indented line. -/
def joinCsvIndented (items : List Text) : Text :=
  items.foldl
    (fun s item => (if s.isEmpty then s else s ++ ",\n".toList) ++ "    ".toList ++ item) []

def ensureValid (s : SelectExpr) : Result (List SelectItem) :=
  match s.select_ with
  | none => .error (.logicError "SELECT clause is not set".toList)
  | some items =>
    if s.from_.isEmpty then .error (.logicError "FROM clause is not set".toList)
    else if s.distinct_ && s.distinctOn_.isSome then
      .error (.logicError "DISTINCT and DISTINCT ON are mutually exclusive".toList)
    else .ok items

/-- A clause that may be missing. -/
def clause {α : Type} (render : α → Text) : Option α → Text
  | some x => render x
  | none => []

def toString (s : SelectExpr) : Result Text := do
  let items ← s.ensureValid
  let head := match s.distinctOn_ with
    | some exps => "SELECT DISTINCT ON (".toList ++ joinCsv (exps.map Expr.toString) ++ ") ".toList
    | none => if s.distinct_ then "SELECT DISTINCT ".toList else "SELECT ".toList
  return head ++ (joinCsv (items.map SelectItem.toString) ++ " FROM ".toList ++ s.from_) ++
    clause (fun c => " WHERE ".toList ++ c.toString) s.where_ ++
    clause (fun l => " GROUP BY ".toList ++ joinCsv (l.map Expr.toString)) s.groupBy_ ++
    clause (fun c => " HAVING ".toList ++ c.toString) s.having_ ++
    clause (fun l => " ORDER BY ".toList ++ joinCsv (l.map OrderByTerm.render)) s.orderBy_ ++
    clause (fun n => " LIMIT ".toList ++ intToString n) s.limit_ ++
    clause (fun n => " OFFSET ".toList ++ intToString n) s.offset_

def toStringFormatted (s : SelectExpr) : Result Text := do
  let items ← s.ensureValid
  let header := match s.distinctOn_ with
    | some exps => "SELECT DISTINCT ON (".toList ++ joinCsv (exps.map Expr.toString) ++ ")\n".toList
    | none => if s.distinct_ then "SELECT DISTINCT\n".toList else "SELECT\n".toList
  return header ++ joinCsvIndented (items.map SelectItem.toString) ++ "\nFROM\n    ".toList ++
    s.from_ ++
    clause (fun c => "\nWHERE\n    ".toList ++ c.toString) s.where_ ++
    clause (fun l => "\nGROUP BY\n".toList ++ joinCsvIndented (l.map Expr.toString)) s.groupBy_ ++
    clause (fun c => "\nHAVING\n    ".toList ++ c.toString) s.having_ ++
    clause (fun l => "\nORDER BY\n".toList ++ joinCsvIndented (l.map OrderByTerm.render))
      s.orderBy_ ++
    clause (fun n => "\nLIMIT\n    ".toList ++ intToString n) s.limit_ ++
    clause (fun n => "\nOFFSET\n    ".toList ++ intToString n) s.offset_

end SelectExpr

/-! ## The base class -/

/-- A `const VirtualTable &`, by its dynamic type. -/
inductive VirtualTable
  | table (t : Table)
  | tableWithColumns (t : TableWithColumns)
  | join (j : Join)
  | select (s : SelectExpr)
  | setOp (s : SetOp)
  | with (w : WithQuery)
  | deleteFrom (d : DeleteFrom)

namespace VirtualTable

def toString : VirtualTable → Result Text
  | table t => .ok t.toString
  | tableWithColumns t => .ok t.name_
  | join j => .ok j.toString
  | select s => s.toString
  | setOp s => .ok s.toString
  | .with w => .ok w.toString
  | deleteFrom d => d.toString

/-- Overridden by `SelectExpr` and `WithQuery`. -/
def toStringFormatted : VirtualTable → Result Text
  | select s => s.toStringFormatted
  | .with w => .ok w.toStringFormatted
  | t => t.toString

/-- Overridden by `Table`: a name needs no brackets. -/
def toStringBracketed : VirtualTable → Result Text
  | table t => .ok t.toString
  | tableWithColumns t => .ok t.name_
  | t => do
    let s ← t.toString
    return "(".toList ++ s ++ ")".toList

/-- Overridden by `Table` and `Join`: nothing else may be a FROM item without an alias. -/
def toStringAsFromItem : VirtualTable → Result Text
  | table t => .ok t.toString
  | tableWithColumns t => .ok t.name_
  | join j => .ok j.toString
  | _ => .error (.logicError "this FROM item requires an alias; use As()".toList)

def as (t : VirtualTable) (name : Text) : Result Table := do
  validateIdentifier name
  let s ← t.toStringBracketed
  return ⟨s ++ " AS ".toList ++ name⟩

/-- `VirtualTable::operator Expr`: a scalar subquery. -/
def toExpr (t : VirtualTable) : Result Expr := do
  let s ← t.toStringBracketed
  return .fromRaw s

end VirtualTable

/-! ## Named tables -/

def Table.fromRaw (name : Text) : Table := ⟨name⟩

namespace TableWithColumns

def fromRaw (name : Text) (columns : List Column) : TableWithColumns :=
  { name_ := name, columns_ := columns }

def selectArgAll (t : TableWithColumns) : Expr :=
  .fromRaw (t.columns_.foldl
    (fun s col => (if s.isEmpty then s else s ++ ", ".toList) ++ col.name) [])

theorem selectArgAll_eq (t : TableWithColumns) :
    t.selectArgAll.toString = joinCsv (t.columns_.map Column.name) := by
  show t.columns_.foldl (fun s col => (if s.isEmpty then s else s ++ ", ".toList) ++ col.name) [] =
    _
  rw [joinCsv, List.foldl_map]

def as (t : TableWithColumns) (name : Text) : Result TableWithColumns := do
  validateIdentifier name
  return { name_ := t.name_ ++ " AS ".toList ++ name, columns_ := t.columns_, alias_ := name }

/-- `Dot(std::string)`. -/
def dot (t : TableWithColumns) (columnName : Text) : Result Expr :=
  if t.alias_.isEmpty then .error (.logicError "Dot() requires calling As() first".toList)
  else if !(t.columns_.any fun c => c.name == columnName) then
    .error (.unknownColumn columnName t.alias_)
  else .ok (.fromRaw (t.alias_ ++ ".".toList ++ columnName) kDot)

/-- `Dot(Column)`. -/
def dotColumn (t : TableWithColumns) (column : Column) : Result Expr := t.dot column.name

end TableWithColumns

/-! ## Predicates over a subquery -/

namespace Expr

def «exists» (subquery : VirtualTable) : Result Condition := do
  let s ← subquery.toStringBracketed
  return ⟨makeLeaf ("EXISTS ".toList ++ s) kSymbol⟩

def notExists (subquery : VirtualTable) : Result Condition := do
  let s ← subquery.toStringBracketed
  return ⟨makeLeaf ("NOT EXISTS ".toList ++ s) kSymbol⟩

/-- The node of a predicate with a subquery on its right. -/
def subqueryNode (precedence : OperatorPrecedence) (connector : Text) (e : Expr)
    (subquery : VirtualTable) : Result Condition := do
  let s ← subquery.toStringBracketed
  return ⟨makeNode precedence [e.child precedence, .text (connector ++ s)]⟩

def inSubquery (e : Expr) (subquery : VirtualTable) : Result Condition :=
  subqueryNode kBetween " IN ".toList e subquery

def notInSubquery (e : Expr) (subquery : VirtualTable) : Result Condition :=
  subqueryNode kBetween " NOT IN ".toList e subquery

def eqAnySubquery (e : Expr) (subquery : VirtualTable) : Result Condition :=
  subqueryNode kCompare " = ANY ".toList e subquery

def neAllSubquery (e : Expr) (subquery : VirtualTable) : Result Condition :=
  subqueryNode kCompare " <> ALL ".toList e subquery

end Expr

end IronQuery
