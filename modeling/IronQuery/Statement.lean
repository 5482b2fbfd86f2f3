import IronQuery.Calls
import IronQuery.Source
import IronQuery.Tree
import IronQuery.Pg.Tables

/-!
# Programs that build statements

A statement is built by calls of setters on terms that are trees and on tables that are built of
names, queries, `As` and joins; a query also of queries, by set operations and `With`.
`TableTree.build`, `QueryTree.build` and the `call` of a step make the calls; `TableTree.ref`,
`QueryTree.meant` and the `meant` of a step say what they mean: the steps on a parsed statement,
`SelectStmt` and its like, each of which sets its clause.
-/

namespace IronQuery

open Pg

/-- The calls of a list of programs. -/
def buildAll {α β : Type} (build : α → Result β) : List α → Result (List β)
  | [] => .ok []
  | x :: l => do
    let y ← build x
    let ys ← buildAll build l
    return y :: ys

/-! ## Terms -/

/-- The name's tokens, its parts between dots. -/
def nameTokens (name : Text) : List Token := pathTokens (dotParts name)

/-- A tree as a condition. -/
def Tree.condition (t : Tree) : Result Condition := do return (← t.build).toCondition

structure ItemTree where
  expr : Tree
  label : Option Text := none

def ItemTree.build (i : ItemTree) : Result SelectItem := do
  let e ← i.expr.build
  match i.label with
  | none => return e.toSelectItem
  | some name => e.as name

def ItemTree.meant (i : ItemTree) : Item Sql := ⟨i.expr.toSql, i.label.map .word⟩

structure SortTree where
  expr : Tree
  direction : SortDirection := .kAscending
  nulls : NullsOrder := .kDefault

def SortTree.build (t : SortTree) : Result OrderByTerm := do
  return ⟨← t.expr.build, t.direction, t.nulls⟩

def NullsOrder.place : NullsOrder → Option NullsPlace
  | kDefault => none
  | kFirst => some .first
  | kLast => some .last

def SortTree.meant (t : SortTree) : SortTerm Sql :=
  ⟨t.expr.toSql, t.direction == .kDescending, t.nulls.place⟩

/-- A column, and the value it is set to. -/
def buildAssignment (p : Tree × Tree) : Result (Expr × Expr) := do
  return (← p.1.build, ← p.2.build)

def meantAssignment (p : Tree × Tree) : Sql × Sql := (p.1.toSql, p.2.toSql)

/-- An integer as a term. -/
def intTree : Int → Tree
  | .ofNat n => .int n
  | .negSucc n => .negative n

/-! ## Tables -/

inductive JoinStep
  | on (condition : Tree)
  | using (columns : List Tree)

def JoinStep.call : JoinStep → Result JoinCall
  | on c => do return .on (← c.condition)
  | .using cols => do return .using (← buildAll Tree.build cols)

def JoinStep.qualifier : JoinStep → Qualifier Sql
  | on c => .on c.toSql
  | .using cols => .using (cols.map Tree.toSql)

inductive TableTree
  /-- `Table`, or `TableWithColumns` if there are columns. -/
  | named (name : Text) (columns : Option (List Column))
  | query (q : Subquery)
  | alias (t : TableTree) (name : Text)
  /-- A join, with the calls made on it. -/
  | join (a b : TableTree) (kind : JoinKind) (steps : List JoinStep)

namespace TableTree

def build : TableTree → Result VirtualTable
  | named name none => .ok (.table (.fromRaw name))
  | named name (some columns) => .ok (.tableWithColumns (.fromRaw name columns))
  | query q => .ok q.table
  | .alias t name => do
    let v ← t.build
    v.aliased name
  | join a b kind steps => do
    let a ← a.build
    let b ← b.build
    let j ← Join.new a b kind
    let calls ← buildAll JoinStep.call steps
    return .join (← JoinCall.applyAll calls j)

end TableTree

/-- What the key words of a join mean. -/
def JoinKind.type : JoinKind → JoinType
  | Inner => ⟨false, .inner⟩
  | Cross => ⟨false, .cross⟩
  | LeftOuter => ⟨false, .left⟩
  | RightOuter => ⟨false, .right⟩
  | FullOuter => ⟨false, .full⟩
  | NaturalInner => ⟨true, .inner⟩
  | NaturalLeftOuter => ⟨true, .left⟩
  | NaturalRightOuter => ⟨true, .right⟩
  | NaturalFullOuter => ⟨true, .full⟩

/-- The table that is meant, every qualifier on its own join. -/
def TableTree.ref : TableTree → TableRef Sql
  | named name _ => .named (nameTokens name)
  | query q => .subquery q.tokens
  | .alias t name => .aliased t.ref (nameTokens name)
  | join a b kind steps => .join a.ref kind.type b.ref (steps.head?.map JoinStep.qualifier)

/-! ## SELECT -/

inductive SelectStep
  | distinct
  | distinctOn (exps : List Tree)
  | select (items : List ItemTree)
  | where (exp : Tree)
  | groupBy (exps : List Tree)
  | having (exp : Tree)
  | orderBy (terms : List SortTree)
  | limit (n : Int)
  | offset (n : Int)

namespace SelectStep

def call : SelectStep → Result SelectCall
  | distinct => .ok .distinct
  | distinctOn exps => do return .distinctOn (← buildAll Tree.build exps)
  | select items => do return .select (← buildAll ItemTree.build items)
  | .where exp => do return .where (← exp.condition)
  | groupBy exps => do return .groupBy (← buildAll Tree.build exps)
  | having exp => do return .having (← exp.condition)
  | orderBy terms => do return .orderBy (← buildAll SortTree.build terms)
  | limit n => .ok (.limit n)
  | offset n => .ok (.offset n)

def meant : SelectStep → SelectStmt Sql (TableRef Sql) → SelectStmt Sql (TableRef Sql)
  | distinct, q => { q with distinct := .distinct }
  | distinctOn exps, q => { q with distinct := .on (exps.map Tree.toSql) }
  | select items, q => { q with items := items.map ItemTree.meant }
  | .where exp, q => { q with condition := some exp.toSql }
  | groupBy exps, q => { q with groupBy := some (exps.map Tree.toSql) }
  | having exp, q => { q with having := some exp.toSql }
  | orderBy terms, q => { q with orderBy := some (terms.map SortTree.meant) }
  | limit n, q => { q with limit := some (intTree n).toSql }
  | offset n, q => { q with offset := some (intTree n).toSql }

end SelectStep

/-- The steps as a chain of calls, up to the first that throws. -/
def runSteps {κ γ σ : Type} (call : κ → Result γ) (apply : γ → σ → Outcome σ) :
    List κ → σ → Result σ
  | [], s => .ok s
  | step :: steps, s => do
    let c ← call step
    let s ← (apply c s).result
    runSteps call apply steps s

/-- `From(source)` and the steps. -/
def buildSelect (source : TableTree) (steps : List SelectStep) : Result SelectExpr := do
  let v ← source.build
  let s ← SelectExpr.fromTable v
  runSteps SelectStep.call SelectCall.apply steps s

/-- The SELECT that is meant. -/
def meantSelect (source : TableTree) (steps : List SelectStep) : SelectStmt Sql (TableRef Sql) :=
  steps.foldl (fun q step => step.meant q) { items := [], source := source.ref }

/-! ## The tables that statements change -/

/-- A named table, with an alias or without. -/
structure TargetTree where
  name : Text
  label : Option Text := none

def TargetTree.build (t : TargetTree) : Result Table :=
  match t.label with
  | none => .ok (.fromRaw t.name)
  | some al => (VirtualTable.table (.fromRaw t.name)).as al

def TargetTree.ref (t : TargetTree) : TableRef Sql :=
  match t.label with
  | none => .named (nameTokens t.name)
  | some al => .aliased (.named (nameTokens t.name)) (nameTokens al)

/-! ## INSERT -/

inductive InsertStep
  | columns (cols : List Tree)
  | values (vals : List Tree)
  | rows (rows : List (List Tree))
  | returning (items : List ItemTree)
  | onConflictDoNothing
  | onConflictDoNothingAt (targetCols : List Tree)
  | onConflictDoUpdate (targetCols : List Tree) (assignments : List (Tree × Tree))

namespace InsertStep

def call : InsertStep → Result InsertCall
  | columns cols => do return .columns (← buildAll Tree.build cols)
  | values vals => do return .values (← buildAll Tree.build vals)
  | rows l => do return .rows (← buildAll (buildAll Tree.build) l)
  | returning items => do return .returning (← buildAll ItemTree.build items)
  | onConflictDoNothing => .ok .onConflictDoNothing
  | onConflictDoNothingAt cols => do
    return .onConflictDoNothingAt (← buildAll Tree.build cols)
  | onConflictDoUpdate cols assignments => do
    let cols ← buildAll Tree.build cols
    let assignments ← buildAll buildAssignment assignments
    return .onConflictDoUpdate cols assignments

/-- The conflict clause that was set last is the one that stays. -/
def meant : InsertStep → InsertStmt Sql (TableRef Sql) → InsertStmt Sql (TableRef Sql)
  | columns cols, q => { q with columns := cols.map Tree.toSql }
  | values vals, q => { q with rows := [vals.map Tree.toSql] }
  | rows l, q => { q with rows := l.map (List.map Tree.toSql) }
  | returning items, q => { q with returning := some (items.map ItemTree.meant) }
  | onConflictDoNothing, q => { q with conflict := some (.nothing none) }
  | onConflictDoNothingAt cols, q =>
    { q with conflict := some (.nothing (some (cols.map Tree.toSql))) }
  | onConflictDoUpdate cols assignments, q =>
    { q with conflict := some (.update (cols.map Tree.toSql) (assignments.map meantAssignment)) }

end InsertStep

/-- `InsertInto(table)` and the steps. -/
def buildInsert (table : TargetTree) (steps : List InsertStep) : Result InsertInto := do
  let t ← table.build
  runSteps InsertStep.call InsertCall.apply steps (.new t)

def meantInsert (table : TargetTree) (steps : List InsertStep) : InsertStmt Sql (TableRef Sql) :=
  steps.foldl (fun q step => step.meant q) { into := table.ref, columns := [], rows := [] }

/-! ## UPDATE and DELETE -/

inductive UpdateStep
  | set (column value : Tree)
  | from (tbl : TableTree)
  | where (exp : Tree)
  | returning (items : List ItemTree)

namespace UpdateStep

def call : UpdateStep → Result UpdateCall
  | set column value => do
    let p ← buildAssignment (column, value)
    return .set p.1 p.2
  | .from tbl => do return .from (← tbl.build)
  | .where exp => do return .where (← exp.condition)
  | returning items => do return .returning (← buildAll ItemTree.build items)

/-- Every `Set` adds its assignment to those before it. -/
def meant : UpdateStep → UpdateStmt Sql (TableRef Sql) → UpdateStmt Sql (TableRef Sql)
  | set column value, q =>
    { q with assignments := q.assignments ++ [meantAssignment (column, value)] }
  | .from tbl, q => { q with source := some tbl.ref }
  | .where exp, q => { q with condition := some exp.toSql }
  | returning items, q => { q with returning := some (items.map ItemTree.meant) }

end UpdateStep

def buildUpdate (table : TargetTree) (steps : List UpdateStep) : Result Update := do
  let t ← table.build
  runSteps UpdateStep.call UpdateCall.apply steps (.new t)

def meantUpdate (table : TargetTree) (steps : List UpdateStep) : UpdateStmt Sql (TableRef Sql) :=
  steps.foldl (fun q step => step.meant q) { table := table.ref, assignments := [] }

inductive DeleteStep
  | using (tbl : TableTree)
  | where (exp : Tree)
  | returning (items : List ItemTree)

namespace DeleteStep

def call : DeleteStep → Result DeleteCall
  | .using tbl => do return .using (← tbl.build)
  | .where exp => do return .where (← exp.condition)
  | returning items => do return .returning (← buildAll ItemTree.build items)

def meant : DeleteStep → DeleteStmt Sql (TableRef Sql) → DeleteStmt Sql (TableRef Sql)
  | .using tbl, q => { q with source := some tbl.ref }
  | .where exp, q => { q with condition := some exp.toSql }
  | returning items, q => { q with returning := some (items.map ItemTree.meant) }

end DeleteStep

def buildDelete (table : TargetTree) (steps : List DeleteStep) : Result DeleteFrom := do
  let t ← table.build
  runSteps DeleteStep.call DeleteCall.apply steps (.new t)

def meantDelete (table : TargetTree) (steps : List DeleteStep) : DeleteStmt Sql (TableRef Sql) :=
  steps.foldl (fun q step => step.meant q) { table := table.ref }

/-! ## Queries -/

mutual

/-- A query over queries. -/
inductive QueryTree
  | select (source : TableTree) (steps : List SelectStep)
  | delete (table : TargetTree) (steps : List DeleteStep)
  | setOp (a b : QueryTree) (kind : SetOpKind)
  /-- CTEs, and `Main`. -/
  | with (ctes : CteTree) (main : QueryTree)

/-- The CTEs of a `WithBuilder`: that of the function `With`, and those of the member. -/
inductive CteTree
  | start (name : Text) (query : QueryTree)
  | next (before : CteTree) (name : Text) (query : QueryTree)

end

mutual

def QueryTree.build : QueryTree → Result VirtualTable
  | .select source steps => do return .select (← buildSelect source steps)
  | .delete table steps => do return .deleteFrom (← buildDelete table steps)
  | .setOp a b kind => do
    let a ← a.build
    let b ← b.build
    return .setOp (← SetOp.new a b kind)
  | .with ctes main => do
    let w ← ctes.build
    let q ← main.build
    return .with (← w.main q)

def CteTree.build : CteTree → Result WithBuilder
  | .start name query => do withCte name (← query.build)
  | .next before name query => do
    let w ← before.build
    let q ← query.build
    (w.with name q).result

end

def SetOpKind.set : SetOpKind → SetKind
  | Union | UnionAll => .union
  | Intersect => .intersect
  | Except => .except

def SetOpKind.all (kind : SetOpKind) : Bool := kind == UnionAll

mutual

/-- The query that is meant. -/
def QueryTree.meant : QueryTree → QueryStmt Sql (TableRef Sql)
  | .select source steps => .select (meantSelect source steps)
  | .delete table steps => .delete (meantDelete table steps)
  | .setOp a b kind => .op a.meant kind.set kind.all b.meant
  | .with ctes main => ctes.around main.meant

/-- The CTEs in front of what they are in scope of. -/
def CteTree.around : CteTree → QueryStmt Sql (TableRef Sql) → QueryStmt Sql (TableRef Sql)
  | .start name query, q => .with (.word name) query.meant q
  | .next before name query, q => before.around (.with (.word name) query.meant q)

end

end IronQuery
