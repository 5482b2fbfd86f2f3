import IronQuery.VirtualTable

/-!
# The builders' constructors and setters

A setter is a function from the object to an `Outcome`. What it renders is rendered before it looks
at the field, as the arguments of `SetOnce` are.
-/

namespace IronQuery

/-- The call's argument, whose rendering may throw before anything else happens. -/
def Outcome.given {α σ : Type} (r : Result α) (s : σ) (f : α → Outcome σ) : Outcome σ :=
  match r with
  | .ok x => f x
  | .error e => .throw e s

@[simp] theorem Outcome.given_ok {α σ : Type} (x : α) (s : σ) (f : α → Outcome σ) :
    Outcome.given (.ok x) s f = f x := rfl

@[simp] theorem Outcome.given_error {α σ : Type} (e : Exception) (s : σ) (f : α → Outcome σ) :
    Outcome.given (.error e) s f = .throw e s := rfl

/-! ## SELECT (`select_expr.cpp`) -/

namespace SelectExpr

/-- The constructor, and `From`. -/
def fromTable (tbl : VirtualTable) : Result SelectExpr := do
  let s ← tbl.toStringAsFromItem
  return { from_ := s }

def distinct (s : SelectExpr) : Outcome SelectExpr := .ok { s with distinct_ := true }

def distinctOn (s : SelectExpr) (exps : List Expr) : Outcome SelectExpr :=
  setOnce s.distinctOn_ "DISTINCT ON clause".toList s { s with distinctOn_ := some exps }

def select (s : SelectExpr) (items : List SelectItem) : Outcome SelectExpr :=
  setOnce s.select_ "SELECT clause".toList s { s with select_ := some items }

def orderBy (s : SelectExpr) (terms : List OrderByTerm) : Outcome SelectExpr :=
  setOnce s.orderBy_ "ORDER BY clause".toList s { s with orderBy_ := some terms }

def groupBy (s : SelectExpr) (exps : List Expr) : Outcome SelectExpr :=
  setOnce s.groupBy_ "GROUP BY clause".toList s { s with groupBy_ := some exps }

def having (s : SelectExpr) (exp : Condition) : Outcome SelectExpr :=
  setOnce s.having_ "HAVING clause".toList s { s with having_ := some exp }

def limit (s : SelectExpr) (limit : Int) : Outcome SelectExpr :=
  setOnce s.limit_ "LIMIT clause".toList s { s with limit_ := some limit }

def offset (s : SelectExpr) (offset : Int) : Outcome SelectExpr :=
  setOnce s.offset_ "OFFSET clause".toList s { s with offset_ := some offset }

end SelectExpr

def SelectExpr.where (s : SelectExpr) (exp : Condition) : Outcome SelectExpr :=
  setOnce s.where_ "WHERE clause".toList s { s with where_ := some exp }

/-! ## INSERT (`insert_into.cpp`) -/

structure InsertInto where
  into_ : Text
  columns_ : List Text := []
  rows_ : List (List Text) := []
  returning_ : Text := []
  onConflict_ : Text := []
  deriving DecidableEq, Repr

namespace InsertInto

/-- The constructor. -/
def new (tbl : Table) : InsertInto := { into_ := tbl.toString }

def ensureSameArity (columns : List Text) (rows : List (List Text)) : Option Exception :=
  if columns.isEmpty || rows.isEmpty then none
  else (rows.find? fun row => row.length != columns.length).map fun row =>
    .logicError (natToString columns.length ++ " columns but a row with ".toList ++
      natToString row.length ++ " values".toList)

/-- `EnsureSameArity(columns_, rows_)`, at the end of a setter. -/
def checkArity (s : InsertInto) : Outcome InsertInto :=
  match ensureSameArity s.columns_ s.rows_ with
  | none => .ok s
  | some e => .throw e s

def columns (s : InsertInto) (cols : List Expr) : Outcome InsertInto :=
  (setOnce s.columns_ "column list".toList s { s with columns_ := cols.map Expr.toString }).andThen
    checkArity

def values (s : InsertInto) (vals : List Expr) : Outcome InsertInto :=
  (setOnce s.rows_ "row values".toList s { s with rows_ := [vals.map Expr.toString] }).andThen
    checkArity

def rows (s : InsertInto) (rows : List (List Expr)) : Outcome InsertInto :=
  (ensureNotSet s.rows_ "row values".toList s).andThen fun s =>
    checkArity { s with rows_ := s.rows_ ++ rows.map fun row => row.map Expr.toString }

def returning (s : InsertInto) (items : List SelectItem) : Outcome InsertInto :=
  setOnce s.returning_ "RETURNING clause".toList s
    { s with returning_ := joinCsv (items.map SelectItem.toString) }

def onConflictDoNothing (s : InsertInto) : Outcome InsertInto :=
  .ok { s with onConflict_ := "ON CONFLICT DO NOTHING".toList }

/-- The overload with the columns of a conflict target. -/
def onConflictDoNothingAt (s : InsertInto) (targetCols : List Expr) : Outcome InsertInto :=
  let target := "ON CONFLICT (".toList ++ joinCsv (targetCols.map Expr.toString)
  .ok { s with onConflict_ := target ++ ") DO NOTHING".toList }

/-- The assignments between commas. -/
def assignmentCsv (assignments : List (Expr × Expr)) : Text :=
  assignments.foldl (fun set p => (if set.isEmpty then set else set ++ ", ".toList) ++
    renderBinary p.1.toString "=".toList p.2.toString) []

def onConflictDoUpdate (s : InsertInto) (targetCols : List Expr)
    (assignments : List (Expr × Expr)) : Outcome InsertInto :=
  if assignments.length = 0 then
    .throw (.invalidArgument "ON CONFLICT DO UPDATE needs at least one assignment".toList) s
  else
    let target := "ON CONFLICT (".toList ++ joinCsv (targetCols.map Expr.toString)
    .ok { s with onConflict_ := target ++ ") DO UPDATE SET ".toList ++ assignmentCsv assignments }

/-- The rows of `VALUES`, by their position. -/
def rowsText : List (List Text) → Text
  | [] => []
  | row :: rows => "(".toList ++ joinCsv row ++ ")".toList ++
    rows.flatMap fun row => ", ".toList ++ ("(".toList ++ joinCsv row ++ ")".toList)

def toString (s : InsertInto) : Result Text :=
  if s.columns_.isEmpty then .error (.logicError "no columns to insert into".toList)
  else if s.rows_.isEmpty then .error (.logicError "no values to insert".toList)
  else match ensureSameArity s.columns_ s.rows_ with
    | some e => .error e
    | none =>
      let t := "INSERT INTO ".toList ++ s.into_ ++ " (".toList ++ joinCsv s.columns_ ++
        ") VALUES ".toList ++ rowsText s.rows_
      let t := if !s.onConflict_.isEmpty then t ++ (" ".toList ++ s.onConflict_) else t
      .ok (if !s.returning_.isEmpty then t ++ (" RETURNING ".toList ++ s.returning_) else t)

end InsertInto

/-! ## UPDATE (`update.cpp`) -/

structure Update where
  table_ : Text
  set_ : Text := []
  from_ : Text := []
  where_ : Text := []
  returning_ : Text := []
  deriving DecidableEq, Repr

namespace Update

/-- The constructor. -/
def new (tbl : Table) : Update := { table_ := tbl.toString }

def set (s : Update) (column value : Expr) : Outcome Update :=
  let before := if s.set_.isEmpty then s.set_ else s.set_ ++ ", ".toList
  .ok { s with set_ := before ++ (column.toString ++ " = ".toList ++ value.toString) }

def returning (s : Update) (items : List SelectItem) : Outcome Update :=
  setOnce s.returning_ "RETURNING clause".toList s
    { s with returning_ := joinCsv (items.map SelectItem.toString) }

def toString (s : Update) : Result Text :=
  if s.set_.isEmpty then .error (.logicError "SET clause is not set".toList)
  else
    let t := "UPDATE ".toList ++ s.table_ ++ " SET ".toList ++ s.set_
    let t := if !s.from_.isEmpty then t ++ (" FROM ".toList ++ s.from_) else t
    let t := if !s.where_.isEmpty then t ++ (" WHERE ".toList ++ s.where_) else t
    .ok (if !s.returning_.isEmpty then t ++ (" RETURNING ".toList ++ s.returning_) else t)

end Update

def Update.from (s : Update) (tbl : VirtualTable) : Outcome Update :=
  .given tbl.toStringAsFromItem s fun t =>
    setOnce s.from_ "FROM clause".toList s { s with from_ := t }

def Update.where (s : Update) (exp : Condition) : Outcome Update :=
  setOnce s.where_ "WHERE clause".toList s { s with where_ := exp.toString }

/-! ## DELETE (`delete_from.cpp`) -/

/-- The constructor. -/
def DeleteFrom.new (tbl : Table) : DeleteFrom := { from_ := tbl.toString }

def DeleteFrom.using (s : DeleteFrom) (tbl : VirtualTable) : Outcome DeleteFrom :=
  .given tbl.toStringAsFromItem s fun t =>
    setOnce s.using_ "USING clause".toList s { s with using_ := t }

def DeleteFrom.where (s : DeleteFrom) (exp : Condition) : Outcome DeleteFrom :=
  setOnce s.where_ "WHERE clause".toList s { s with where_ := exp.toString }

def DeleteFrom.returning (s : DeleteFrom) (items : List SelectItem) : Outcome DeleteFrom :=
  setOnce s.returning_ "RETURNING clause".toList s
    { s with returning_ := joinCsv (items.map SelectItem.toString) }

/-! ## Joins (`join.cpp`) -/

inductive JoinKind
  | Inner
  | Cross
  | LeftOuter
  | RightOuter
  | FullOuter
  | NaturalInner
  | NaturalLeftOuter
  | NaturalRightOuter
  | NaturalFullOuter
  deriving DecidableEq, Repr

namespace JoinKind

def toString : JoinKind → Text
  | Inner => "INNER".toList
  | Cross => "CROSS".toList
  | LeftOuter => "LEFT OUTER".toList
  | RightOuter => "RIGHT OUTER".toList
  | FullOuter => "FULL OUTER".toList
  | NaturalInner => "NATURAL INNER".toList
  | NaturalLeftOuter => "NATURAL LEFT OUTER".toList
  | NaturalRightOuter => "NATURAL RIGHT OUTER".toList
  | NaturalFullOuter => "NATURAL FULL OUTER".toList

def isNatural : JoinKind → Bool
  | NaturalInner | NaturalLeftOuter | NaturalRightOuter | NaturalFullOuter => true
  | _ => false

end JoinKind

/-- The constructor. -/
def Join.new (a b : VirtualTable) (kind : JoinKind) : Result Join := do
  let a ← a.toStringBracketed
  let b ← b.toStringBracketed
  return { a_ := a, b_ := b, kind_ := kind.toString, natural_ := kind.isNatural }

def Join.on (s : Join) (exp : Condition) : Outcome Join :=
  if s.natural_ then .throw (.logicError "NATURAL JOIN cannot have an ON clause".toList) s
  else if !s.using_.isEmpty then
    .throw (.logicError "JOIN cannot have both ON and USING clauses".toList) s
  else setOnce s.on_ "ON clause".toList s { s with on_ := exp.toString }

def Join.using (s : Join) (columns : List Expr) : Outcome Join :=
  if s.natural_ then .throw (.logicError "NATURAL JOIN cannot have a USING clause".toList) s
  else if !s.on_.isEmpty then
    .throw (.logicError "JOIN cannot have both ON and USING clauses".toList) s
  else if columns.length = 0 then
    .throw (.invalidArgument "USING clause needs at least one column".toList) s
  else setOnce s.using_ "USING clause".toList s
    { s with using_ := joinCsv (columns.map Expr.toString) }

/-! ## Set operations (`set_op.cpp`) -/

inductive SetOpKind
  | Union
  | UnionAll
  | Intersect
  | Except
  deriving DecidableEq, Repr

def SetOpKind.toString : SetOpKind → Text
  | Union => "UNION".toList
  | UnionAll => "UNION ALL".toList
  | Intersect => "INTERSECT".toList
  | Except => "EXCEPT".toList

/-- The constructor. -/
def SetOp.new (a b : VirtualTable) (kind : SetOpKind) : Result SetOp := do
  let a ← a.toStringBracketed
  let b ← b.toStringBracketed
  return { a_ := a, b_ := b, kind_ := kind.toString }

/-! ## WITH (`with.cpp`) -/

structure WithBuilder where
  ctes_ : Text
  ctesFormatted_ : Text
  cteNames_ : List Text
  deriving DecidableEq, Repr

/-- A CTE in the one-line text. -/
def cteText (name body : Text) : Text := name ++ " AS ".toList ++ body

/-- A CTE in the formatted text. -/
def cteTextFormatted (name body : Text) : Text :=
  name ++ " AS (\n".toList ++ indentBlock body 4 ++ "\n)".toList

/-- `With()`, which starts the chain. -/
def withCte (name : Text) (query : VirtualTable) : Result WithBuilder := do
  validateIdentifier name
  let body ← query.toStringBracketed
  let formatted ← query.toStringFormatted
  return { ctes_ := cteText name body, ctesFormatted_ := cteTextFormatted name formatted,
           cteNames_ := [name] }

def WithBuilder.with (s : WithBuilder) (name : Text) (query : VirtualTable) : Outcome WithBuilder :=
  .given (validateIdentifier name) s fun _ =>
    if s.cteNames_.contains name then
      .throw (.logicError ("duplicate CTE name: ".toList ++ name)) s
    else .given query.toStringBracketed s fun body =>
      let s := { s with ctes_ := s.ctes_ ++ (", ".toList ++ cteText name body) }
      .given query.toStringFormatted s fun formatted =>
        .ok { s with
          ctesFormatted_ := s.ctesFormatted_ ++ (",\n".toList ++ cteTextFormatted name formatted)
          cteNames_ := s.cteNames_ ++ [name] }

def WithBuilder.main (s : WithBuilder) (query : VirtualTable) : Result WithQuery := do
  let main ← query.toString
  let formatted ← query.toStringFormatted
  return { ctes_ := s.ctes_, main_ := main, ctesFormatted_ := s.ctesFormatted_,
           mainFormatted_ := formatted }

end IronQuery
