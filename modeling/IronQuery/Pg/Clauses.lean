import IronQuery.Pg.Subquery
import IronQuery.Pg.Tokens

/-!
# The clauses of a statement

A statement is a sequence of clauses, each behind the key words that head it and missing or not
(`readClauses`). A clause ends at the first word outside brackets that heads a later one
(`outside`); `FROM` right behind `DISTINCT` heads none. A list ends its terms at the commas outside
brackets (`terms`). `readSelect`, `readInsert`, `readUpdate` and `readDelete` read the four
statements so, with any readers of expressions (`term`) and of tables (`ref`) for their parts. They
are wider than PostgreSQL's grammar: the columns of an `INSERT` and the targets of a conflict are any
terms.
-/

namespace Pg

/-! ## Parts of a statement -/

/-- Where a reader of tokens stands: how deep in brackets, and whether right behind `DISTINCT`. -/
structure Spot where
  depth : Nat
  held : Bool
  deriving DecidableEq, Repr

namespace Spot

def top : Spot := ⟨0, false⟩

def next (p : Spot) (t : Token) : Spot :=
  if t = .punct '(' then ⟨p.depth + 1, false⟩
  else if t = .punct ')' then ⟨p.depth - 1, false⟩
  else ⟨p.depth, t.key == some .distinct⟩

/-- The token belongs to the part being read: outside brackets it is no bracket that the part did
not open, and does not end the part. -/
def keeps (stop : Token → Bool) (p : Spot) (t : Token) : Bool :=
  p.depth != 0 || (t != .punct ')' && (!stop t || (p.held && t.key == some .from)))

/-- The spot behind tokens that all belong to one part. -/
def run (stop : Token → Bool) (p : Spot) : List Token → Option Spot
  | [] => some p
  | t :: ts => if p.keeps stop t then (p.next t).run stop ts else none

end Spot

/-- The tokens of a part that `stop` ends, and the others. -/
def outside (stop : Token → Bool) : Spot → List Token → List Token × List Token
  | _, [] => ([], [])
  | p, t :: ts =>
    if p.keeps stop t then (t :: (outside stop (p.next t) ts).1, (outside stop (p.next t) ts).2)
    else ([], t :: ts)

/-- The terms between the commas outside brackets. -/
def terms : Spot → List Token → List (List Token)
  | _, [] => [[]]
  | p, t :: ts =>
    if p.depth = 0 ∧ t = .punct ',' then [] :: terms .top ts
    else (terms (p.next t) ts).modifyHead (t :: ·)

/-- The tokens behind the key words. -/
def behind : List Key → List Token → Option (List Token)
  | [], ts => some ts
  | k :: ks, t :: ts => if t.key = some k then behind ks ts else none
  | _ :: _, [] => none

/-- The token may head one of the clauses. -/
def startsOne (heads : List (List Key)) (t : Token) : Bool :=
  heads.any fun h => t.key.isSome && h.head? == t.key

/-- The clauses with the given heads, in their order; all tokens belong to one. -/
def readClauses : List (List Key) → List Token → Option (List (Option (List Token)))
  | [], ts => if ts.isEmpty then some [] else none
  | h :: heads, ts =>
    match behind h ts with
    | some r =>
      let p := outside (startsOne heads) .top r
      (readClauses heads p.2).map (some p.1 :: ·)
    | none => (readClauses heads ts).map (none :: ·)

/-- A name: parts that `part` holds of, with dots between them. -/
def readPath (part : Token → Bool) : List Token → Option (List Token × List Token)
  | t :: .punct '.' :: ts =>
    if part t then (readPath part ts).map fun p => (t :: .punct '.' :: p.1, p.2) else none
  | t :: ts => if part t then some ([t], ts) else none
  | [] => none

/-- What `AS` may put behind an item or a table. -/
def isLabel : Token → Bool
  | .word _ | .quotedIdent _ => true
  | _ => false

/-- Tokens as one expression. -/
def readTerm (ts : List Token) : Option Sql := parse (units ts)

section
variable {τ φ : Type} (term : List Token → Option τ) (ref : List Token → Option φ)

/-- A list of terms in brackets, and nothing else. -/
def readRow : List Token → Option (List τ)
  | .punct '(' :: ts =>
    match upTo 0 ts with
    | some (inner, []) => (terms .top inner).mapM term
    | _ => none
  | _ => none

/-! ## Terms with more than an expression -/

structure Item (τ : Type) where
  expr : τ
  label : Option Token := none
  deriving DecidableEq, Repr

def readItem (ts : List Token) : Option (Item τ) :=
  let p := outside (·.key == some .as) .top ts
  match p.2 with
  | [] => (term p.1).map (⟨·, none⟩)
  | [_, t] => if isLabel t then (term p.1).map (⟨·, some t⟩) else none
  | _ => none

inductive NullsPlace
  | first | last
  deriving DecidableEq, Repr

structure SortTerm (τ : Type) where
  expr : τ
  descending : Bool := false
  nulls : Option NullsPlace := none
  deriving DecidableEq, Repr

/-- `NULLS FIRST` or `NULLS LAST` at the end. -/
def readNulls (ts : List Token) : List Token × Option NullsPlace :=
  match ts.reverse with
  | t :: u :: r =>
    if u.key = some .nulls then
      if t.key = some .first then (r.reverse, some .first)
      else if t.key = some .last then (r.reverse, some .last)
      else (ts, none)
    else (ts, none)
  | _ => (ts, none)

/-- `ASC` or `DESC` at the end. -/
def readDirection (ts : List Token) : List Token × Bool :=
  match ts.getLast? with
  | some t =>
    if t.key = some .desc then (ts.dropLast, true)
    else if t.key = some .asc then (ts.dropLast, false)
    else (ts, false)
  | none => (ts, false)

def readSort (ts : List Token) : Option (SortTerm τ) :=
  let p := readNulls ts
  let q := readDirection p.1
  (term q.1).map (⟨·, q.2, p.2⟩)

/-- `column = value`. -/
def readAssignment (ts : List Token) : Option (τ × τ) :=
  let p := outside (· == .op "=".toList) .top ts
  match p.2 with
  | _ :: value => do return (← term p.1, ← term value)
  | [] => none

/-! ## SELECT -/

inductive Distinct (τ : Type)
  | all
  | distinct
  | on (exprs : List τ)
  deriving DecidableEq, Repr

structure SelectStmt (τ φ : Type) where
  distinct : Distinct τ := .all
  items : List (Item τ)
  source : φ
  condition : Option τ := none
  groupBy : Option (List τ) := none
  having : Option τ := none
  orderBy : Option (List (SortTerm τ)) := none
  limit : Option τ := none
  offset : Option τ := none
  deriving DecidableEq, Repr

def readDistinct (ts : List Token) : Option (Distinct τ × List Token) :=
  match behind [.distinct, .on] ts with
  | some (.punct '(' :: r) => do
    let (inner, r) ← upTo 0 r
    return (.on (← (terms .top inner).mapM term), r)
  | some _ => none
  | none =>
    match behind [.distinct] ts with
    | some r => some (.distinct, r)
    | none => some (.all, ts)

def selectHeads : List (List Key) :=
  [[.select], [.from], [.where], [.group, .by], [.having], [.order, .by], [.limit], [.offset]]

def readSelect (ts : List Token) : Option (SelectStmt τ φ) := do
  match ← readClauses selectHeads ts with
  | [some head, some source, condition, groupBy, having, orderBy, limit, offset] => do
    let (d, items) ← readDistinct term head
    return {
      distinct := d
      items := ← (terms .top items).mapM (readItem term)
      source := ← ref source
      condition := ← condition.mapM term
      groupBy := ← groupBy.mapM fun ts => (terms .top ts).mapM term
      having := ← having.mapM term
      orderBy := ← orderBy.mapM fun ts => (terms .top ts).mapM (readSort term)
      limit := ← limit.mapM term
      offset := ← offset.mapM term }
  | _ => none

/-! ## INSERT -/

inductive Conflict (τ : Type)
  | nothing (target : Option (List τ))
  | update (target : List τ) (assignments : List (τ × τ))
  deriving DecidableEq, Repr

structure InsertStmt (τ φ : Type) where
  into : φ
  columns : List τ
  rows : List (List τ)
  conflict : Option (Conflict τ) := none
  returning : Option (List (Item τ)) := none
  deriving DecidableEq, Repr

/-- The words at the front, in any case, and the tokens behind them. -/
def behindWords : List Text → List Token → Option (List Token)
  | [], ts => some ts
  | v :: vs, .word w :: ts => if w.map Char.toUpper = v then behindWords vs ts else none
  | _ :: _, _ => none

/-- What follows the target of a conflict. -/
def readAction (target : Option (List τ)) (ts : List Token) : Option (Conflict τ) :=
  match behindWords ["DO".toList, "NOTHING".toList] ts with
  | some [] => some (.nothing target)
  | some _ => none
  | none => do
    let r ← behindWords ["DO".toList, "UPDATE".toList, "SET".toList] ts
    return .update (← target) (← (terms .top r).mapM (readAssignment term))

/-- The conflict clause behind its `ON`. -/
def readConflict (ts : List Token) : Option (Conflict τ) :=
  match behindWords ["CONFLICT".toList] ts with
  | some (.punct '(' :: r) => do
    let (inner, r) ← upTo 0 r
    readAction term (some (← (terms .top inner).mapM term)) r
  | some r => readAction term none r
  | none => none

def insertHeads : List (List Key) := [[.insert, .into], [.values], [.on], [.returning]]

def readInsert (ts : List Token) : Option (InsertStmt τ φ) := do
  match ← readClauses insertHeads ts with
  | [some target, some rows, conflict, returning] => do
    let p := outside (· == .punct '(') .top target
    return {
      into := ← ref p.1
      columns := ← readRow term p.2
      rows := ← (terms .top rows).mapM (readRow term)
      conflict := ← conflict.mapM (readConflict term)
      returning := ← returning.mapM fun ts => (terms .top ts).mapM (readItem term) }
  | _ => none

/-! ## UPDATE and DELETE -/

structure UpdateStmt (τ φ : Type) where
  table : φ
  assignments : List (τ × τ)
  source : Option φ := none
  condition : Option τ := none
  returning : Option (List (Item τ)) := none
  deriving DecidableEq, Repr

def updateHeads : List (List Key) := [[.update], [.set], [.from], [.where], [.returning]]

def readUpdate (ts : List Token) : Option (UpdateStmt τ φ) := do
  match ← readClauses updateHeads ts with
  | [some table, some assignments, source, condition, returning] => do
    return {
      table := ← ref table
      assignments := ← (terms .top assignments).mapM (readAssignment term)
      source := ← source.mapM ref
      condition := ← condition.mapM term
      returning := ← returning.mapM fun ts => (terms .top ts).mapM (readItem term) }
  | _ => none

structure DeleteStmt (τ φ : Type) where
  table : φ
  source : Option φ := none
  condition : Option τ := none
  returning : Option (List (Item τ)) := none
  deriving DecidableEq, Repr

def deleteHeads : List (List Key) := [[.delete, .from], [.using], [.where], [.returning]]

def readDelete (ts : List Token) : Option (DeleteStmt τ φ) := do
  match ← readClauses deleteHeads ts with
  | [some table, source, condition, returning] => do
    return {
      table := ← ref table
      source := ← source.mapM ref
      condition := ← condition.mapM term
      returning := ← returning.mapM fun ts => (terms .top ts).mapM (readItem term) }
  | _ => none

end

example : readDelete some some (lex "DELETE FROM t USING a JOIN b USING (x) WHERE c".toList) =
    some { table := lex "t".toList, source := some (lex "a JOIN b USING (x)".toList),
           condition := some (lex "c".toList) } := by decide

end Pg
