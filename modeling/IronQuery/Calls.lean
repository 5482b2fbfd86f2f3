import IronQuery.Builders
import IronQuery.Run

/-!
# The setter calls of each builder

A call is a setter with its arguments (`apply` makes it), and the clause it sets, if it may set it
only once. The one-term overloads call the list ones, so the list ones stand for both.
-/

namespace IronQuery

/-- The builders with clauses. -/
inductive Builder
  | select | insert | update | delete | join | case
  deriving DecidableEq, Repr

/-! ## SELECT -/

inductive SelectClause
  | distinct | distinctOn | select | where | groupBy | having | orderBy | limit | offset
  deriving DecidableEq, Repr

inductive SelectCall
  | distinct
  | distinctOn (exps : List Expr)
  | select (items : List SelectItem)
  | where (exp : Condition)
  | groupBy (exps : List Expr)
  | having (exp : Condition)
  | orderBy (terms : List OrderByTerm)
  | limit (limit : Int)
  | offset (offset : Int)

namespace SelectCall

def apply : SelectCall → SelectExpr → Outcome SelectExpr
  | distinct, s => s.distinct
  | distinctOn exps, s => s.distinctOn exps
  | select items, s => s.select items
  | .where exp, s => s.where exp
  | groupBy exps, s => s.groupBy exps
  | having exp, s => s.having exp
  | orderBy terms, s => s.orderBy terms
  | limit n, s => s.limit n
  | offset n, s => s.offset n

def clause : SelectCall → Option SelectClause
  | distinct => some .distinct
  | distinctOn _ => some .distinctOn
  | select _ => some .select
  | .where _ => some .where
  | groupBy _ => some .groupBy
  | having _ => some .having
  | orderBy _ => some .orderBy
  | limit _ => some .limit
  | offset _ => some .offset

end SelectCall

/-! ## INSERT -/

/-- `Values` and `Rows` set one clause, and so do the `ON CONFLICT` setters. -/
inductive InsertClause
  | columns | rows | returning | onConflict
  deriving DecidableEq, Repr

inductive InsertCall
  | columns (cols : List Expr)
  | values (vals : List Expr)
  | rows (rows : List (List Expr))
  | returning (items : List SelectItem)
  | onConflictDoNothing
  | onConflictDoNothingAt (targetCols : List Expr)
  | onConflictDoUpdate (targetCols : List Expr) (assignments : List (Expr × Expr))

namespace InsertCall

def apply : InsertCall → InsertInto → Outcome InsertInto
  | columns cols, s => s.columns cols
  | values vals, s => s.values vals
  | rows vals, s => s.rows vals
  | returning items, s => s.returning items
  | onConflictDoNothing, s => s.onConflictDoNothing
  | onConflictDoNothingAt cols, s => s.onConflictDoNothingAt cols
  | onConflictDoUpdate cols assignments, s => s.onConflictDoUpdate cols assignments

def clause : InsertCall → Option InsertClause
  | columns _ => some .columns
  | values _ | rows _ => some .rows
  | returning _ => some .returning
  | onConflictDoNothing | onConflictDoNothingAt _ | onConflictDoUpdate _ _ => some .onConflict

end InsertCall

/-! ## UPDATE -/

inductive UpdateClause
  | from | where | returning
  deriving DecidableEq, Repr

inductive UpdateCall
  | set (column value : Expr)
  | from (tbl : VirtualTable)
  | where (exp : Condition)
  | returning (items : List SelectItem)

namespace UpdateCall

def apply : UpdateCall → Update → Outcome Update
  | set column value, s => s.set column value
  | .from tbl, s => s.from tbl
  | .where exp, s => s.where exp
  | returning items, s => s.returning items

/-- `Set` may be called again. -/
def clause : UpdateCall → Option UpdateClause
  | set _ _ => none
  | .from _ => some .from
  | .where _ => some .where
  | returning _ => some .returning

end UpdateCall

/-! ## DELETE -/

inductive DeleteClause
  | using | where | returning
  deriving DecidableEq, Repr

inductive DeleteCall
  | using (tbl : VirtualTable)
  | where (exp : Condition)
  | returning (items : List SelectItem)

namespace DeleteCall

def apply : DeleteCall → DeleteFrom → Outcome DeleteFrom
  | .using tbl, s => s.using tbl
  | .where exp, s => s.where exp
  | returning items, s => s.returning items

def clause : DeleteCall → Option DeleteClause
  | .using _ => some .using
  | .where _ => some .where
  | returning _ => some .returning

end DeleteCall

/-! ## Joins -/

inductive JoinClause
  | on | using
  deriving DecidableEq, Repr

inductive JoinCall
  | on (exp : Condition)
  | using (columns : List Expr)

namespace JoinCall

def apply : JoinCall → Join → Outcome Join
  | on exp, s => s.on exp
  | .using columns, s => s.using columns

def clause : JoinCall → Option JoinClause
  | on _ => some .on
  | .using _ => some .using

end JoinCall

/-! ## WITH -/

/-- `With`, the only setter of its builder. -/
structure WithCall where
  name : Text
  query : VirtualTable

def WithCall.apply (c : WithCall) (s : WithBuilder) : Outcome WithBuilder := s.with c.name c.query

/-! ## CASE -/

inductive CaseCall
  | when (cond : Condition)
  | then (result : Expr)
  | else (result : Expr)

namespace CaseCall

def apply : CaseCall → CaseBuilder → Outcome CaseBuilder
  | when cond, s => s.when cond
  | .then result, s => s.then result
  | .else result, s => s.else result

/-- `CASE` has one clause, its `ELSE`; a branch is no clause. -/
def clause : CaseCall → Option Unit
  | when _ | .then _ => none
  | .else _ => some ()

end CaseCall

end IronQuery
