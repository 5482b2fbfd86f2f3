import IronQuery.Pg.Clauses

/-!
# Joins, set operations and CTEs

`readRef` reads tokens as one table reference, `readQuery` as the SELECTs that set operations join,
`readStmt` as one query with the clauses of all its parts. Joins of one bracket associate to the
left; an `ON` or `USING` belongs to the nearest join in front of it that admits one and has none
yet, which takes all that stands between the two as its right operand (`attach`). `INTERSECT` binds
tighter than `UNION` and `EXCEPT`, and all three associate to the left.

The readers are wider than PostgreSQL's grammar. Where SQL asks for a qualifier and the text has
none, and where it admits none and the text has one, the text is still read; an alias may be dotted,
and `USING` may list any terms.
-/

namespace Pg

/-! ## Table references -/

inductive JoinSide
  | inner | cross | left | right | full
  deriving DecidableEq, Repr

structure JoinType where
  natural : Bool
  side : JoinSide
  deriving DecidableEq, Repr

inductive Qualifier (τ : Type)
  | on (condition : τ)
  | using (columns : List τ)
  deriving DecidableEq, Repr

inductive TableRef (τ : Type)
  | named (name : List Token)
  | subquery (query : List Token)
  | aliased (t : TableRef τ) (name : List Token)
  | join (a : TableRef τ) (type : JoinType) (b : TableRef τ) (qualifier : Option (Qualifier τ))
  deriving DecidableEq, Repr

/-- A part of a table's name. -/
def isNamePart : Token → Bool
  | .word w => isName w
  | .quotedIdent _ => true
  | _ => false

/-- `JOIN`, or `OUTER JOIN`. -/
def afterOuter (ts : List Token) : Option (List Token) :=
  match behind [.outer] ts with
  | some r => behind [.join] r
  | none => behind [.join] ts

def readSide : List Token → Option (JoinSide × List Token)
  | [] => none
  | t :: ts =>
    match t.key with
    | some .join => some (.inner, ts)
    | some .inner => (behind [.join] ts).map fun r => (.inner, r)
    | some .cross => (behind [.join] ts).map fun r => (.cross, r)
    | some .left => (afterOuter ts).map fun r => (.left, r)
    | some .right => (afterOuter ts).map fun r => (.right, r)
    | some .full => (afterOuter ts).map fun r => (.full, r)
    | _ => none

/-- The key words of a join, to `JOIN`. -/
def readJoin (ts : List Token) : Option (JoinType × List Token) :=
  match behind [.natural] ts with
  | some r => (readSide r).map fun p => (⟨true, p.1⟩, p.2)
  | none => (readSide ts).map fun p => (⟨false, p.1⟩, p.2)

/-- A word that ends the condition of a join. -/
def isJoinWord (t : Token) : Bool :=
  match t.key with
  | some .on | some .using | some .join | some .inner | some .cross | some .left | some .right
  | some .full | some .natural => true
  | _ => false

section
variable {τ : Type} (term : List Token → Option τ)

def readQualifier : List Token → Option (Qualifier τ × List Token)
  | [] => none
  | t :: ts =>
    match t.key with
    | some .on =>
      let p := outside isJoinWord .top ts
      (term p.1).map fun c => (.on c, p.2)
    | some .using =>
      match ts with
      | .punct '(' :: ts => do
        let (inner, r) ← upTo 0 ts
        return (.using (← (terms .top inner).mapM term), r)
      | _ => none
    | _ => none

/-- A join in the making, without its left operand. -/
structure Link (τ : Type) where
  type : JoinType
  right : TableRef τ
  qualifier : Option (Qualifier τ) := none

/-- The joins, in their order, behind their first operand. -/
def chainLinks (a : TableRef τ) (links : List (Link τ)) : TableRef τ :=
  links.foldl (fun a l => .join a l.type l.right l.qualifier) a

/-- The qualifier at the nearest join that `admits` it and has none, the last join first; `later`
are the joins behind those still to look at. -/
def attachTo (admits : JoinType → Bool) (q : Qualifier τ) :
    List (Link τ) → List (Link τ) → Option (List (Link τ))
  | _, [] => none
  | later, l :: links =>
    if l.qualifier.isNone && admits l.type then
      some (⟨l.type, chainLinks l.right later, some q⟩ :: links)
    else attachTo admits q (l :: later) links

/-- SQL asks for a qualifier behind the join. -/
def JoinType.qualified (t : JoinType) : Bool := !t.natural && t.side != .cross

/-- The qualifier at the nearest join that is to have one, or at the nearest of any kind. -/
def attach (q : Qualifier τ) (links : List (Link τ)) : Option (List (Link τ)) :=
  match attachTo JoinType.qualified q [] links with
  | some links => some links
  | none => attachTo (fun _ => true) q [] links

def readAlias (t : TableRef τ) (ts : List Token) : Option (TableRef τ × List Token) :=
  match behind [.as] ts with
  | some r => (readPath isLabel r).map fun p => (.aliased t p.1, p.2)
  | none => some (t, ts)

mutual

/-- All tokens, as one table reference, with `n` steps to spend. -/
def readRefAux : Nat → List Token → Option (TableRef τ)
  | 0, _ => none
  | n + 1, ts => do
    let (t, r) ← readOperand n ts
    readLinks n t [] r

/-- A name, a query in brackets or a reference in brackets, and its alias. -/
def readOperand : Nat → List Token → Option (TableRef τ × List Token)
  | 0, _ => none
  | n + 1, ts =>
    match ts with
    | .punct '(' :: r => do
      let (inner, r) ← upTo 0 r
      let t ← if isQuery inner then some (.subquery inner) else readRefAux n inner
      readAlias t r
    | _ => do
      let (name, r) ← readPath isNamePart ts
      readAlias (.named name) r

/-- The joins behind an operand; `links` are those read, the last one first. -/
def readLinks : Nat → TableRef τ → List (Link τ) → List Token → Option (TableRef τ)
  | 0, _, _, _ => none
  | _ + 1, a, links, [] => some (chainLinks a links.reverse)
  | n + 1, a, links, ts =>
    match readJoin ts with
    | some (type, r) => do
      let (b, r) ← readOperand n r
      readLinks n a (⟨type, b, none⟩ :: links) r
    | none => do
      let (q, r) ← readQualifier term ts
      let links ← attach q links
      readLinks n a links r

end

/-- Tokens as one table reference. -/
def readRef (ts : List Token) : Option (TableRef τ) := readRefAux term (ts.length + 3) ts

end

/-! ## Queries -/

inductive SetKind
  | union | intersect | except
  deriving DecidableEq, Repr

inductive QueryExpr
  | query (ts : List Token)
  | op (a : QueryExpr) (kind : SetKind) (all : Bool) (b : QueryExpr)
  deriving DecidableEq, Repr

def Token.setKind (t : Token) : Option SetKind :=
  match t.key with
  | some .union => some .union
  | some .intersect => some .intersect
  | some .except => some .except
  | _ => none

/-- A set operation, and its `ALL`. -/
def readSetKind : List Token → Option (SetKind × Bool × List Token)
  | [] => none
  | t :: ts => t.setKind.map fun k =>
    match behind [.all] ts with
    | some r => (k, true, r)
    | none => (k, false, ts)

/-- What has been read in front of a set operation, and its last operand so far. -/
def joinQueries : Option (QueryExpr × SetKind × Bool) → QueryExpr → QueryExpr
  | none, q => q
  | some (a, kind, all), q => .op a kind all q

mutual

/-- All tokens, as one query, with `n` steps to spend: a `WITH` is the whole query's. -/
def readQueryAux : Nat → List Token → Option QueryExpr
  | 0, _ => none
  | n + 1, ts =>
    match behind [.with] ts with
    | some _ => some (.query ts)
    | none => do
      let (q, r) ← readBlock n ts
      readOps n none q r

/-- A `SELECT`, or a query in brackets. -/
def readBlock : Nat → List Token → Option (QueryExpr × List Token)
  | 0, _ => none
  | n + 1, ts =>
    match ts with
    | .punct '(' :: r => do
      let (inner, r) ← upTo 0 r
      let q ← readQueryAux n inner
      some (q, r)
    | _ => do
      let _ ← behind [.select] ts
      let p := outside (·.setKind.isSome) .top ts
      some (.query p.1, p.2)

/-- The set operations behind `q`, which is the right operand of what `before` holds. -/
def readOps : Nat → Option (QueryExpr × SetKind × Bool) → QueryExpr → List Token → Option QueryExpr
  | 0, _, _, _ => none
  | _ + 1, before, q, [] => some (joinQueries before q)
  | n + 1, before, q, ts => do
    let (kind, all, r) ← readSetKind ts
    let (b, r) ← readBlock n r
    if kind = .intersect then readOps n before (.op q kind all b) r
    else readOps n (some (joinQueries before q, kind, all)) b r

end

/-- Tokens as one query. -/
def readQuery (ts : List Token) : Option QueryExpr := readQueryAux (ts.length + 3) ts

/-! ## Queries with their clauses -/

/-- A query that may stand as one, with all its clauses. A CTE is in scope of what stands behind it:
of the later CTEs and of the main query. -/
inductive QueryStmt (τ φ : Type)
  | select (q : SelectStmt τ φ)
  | delete (q : DeleteStmt τ φ)
  | op (a : QueryStmt τ φ) (kind : SetKind) (all : Bool) (b : QueryStmt τ φ)
  | with (name : Token) (query main : QueryStmt τ φ)
  deriving DecidableEq, Repr

section
variable {τ φ : Type} (term : List Token → Option τ) (ref : List Token → Option φ)

/-- The set operations, over what `leaf` reads their operands as. -/
def QueryExpr.resolve (leaf : List Token → Option (QueryStmt τ φ)) :
    QueryExpr → Option (QueryStmt τ φ)
  | query ts => leaf ts
  | op a kind all b => do return .op (← a.resolve leaf) kind all (← b.resolve leaf)

/-- A query that is no set operation, if `whole` reads one that starts with `WITH`. -/
def readLeaf (whole : List Token → Option (QueryStmt τ φ)) (ts : List Token) :
    Option (QueryStmt τ φ) :=
  match behind [.with] ts with
  | some _ => whole ts
  | none => (readSelect term ref ts).map .select

mutual

/-- All tokens, as one query with its clauses, with `n` steps to spend. -/
def readStmtAux : Nat → List Token → Option (QueryStmt τ φ)
  | 0, _ => none
  | n + 1, ts =>
    match behind [.with] ts with
    | some r => readCtes n r
    | none =>
      match behind [.delete, .from] ts with
      | some _ => (readDelete term ref ts).map .delete
      | none => do (← readQuery ts).resolve (readLeaf term ref (readStmtAux n))

/-- CTEs, and the main query behind them, which has no `WITH` of its own. -/
def readCtes : Nat → List Token → Option (QueryStmt τ φ)
  | 0, _ => none
  | _ + 1, [] => none
  | n + 1, name :: ts =>
    match isLabel name, behind [.as] ts with
    | true, some (.punct '(' :: r) => do
      let (inner, r) ← upTo 0 r
      let query ← readStmtAux n inner
      match r with
      | .punct ',' :: r => (readCtes n r).map (.with name query)
      | r =>
        match behind [.with] r with
        | some _ => none
        | none => (readStmtAux n r).map (.with name query)
    | _, _ => none

end

/-- Tokens as one query with its clauses. -/
def readStmt (ts : List Token) : Option (QueryStmt τ φ) := readStmtAux term ref (ts.length + 1) ts

end

end Pg
