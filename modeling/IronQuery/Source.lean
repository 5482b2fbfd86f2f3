import IronQuery.Calls

/-!
# Sources of rows

`Source` is a program of the table API: named tables, queries, `As` and joins over them; `build`
runs it. `FromItem` is what a FROM clause is made of, with its text; `Source.item` is the item that
a source denotes.
-/

namespace IronQuery

/-! ## Programs -/

/-- The classes whose values are queries, not tables. -/
inductive Query
  | select (s : SelectExpr)
  | setOp (s : SetOp)
  | with (w : WithQuery)
  | deleteFrom (d : DeleteFrom)

def Query.toVirtualTable : Query → VirtualTable
  | select s => .select s
  | setOp s => .setOp s
  | .with w => .with w
  | deleteFrom d => .deleteFrom d

inductive Source
  | table (name : Text)
  | tableWithColumns (name : Text) (columns : List Column)
  /-- A query, whatever it was built from. -/
  | query (q : Query)
  | alias (s : Source) (name : Text)
  /-- A join, with the calls made on it. -/
  | join (a b : Source) (kind : JoinKind) (calls : List JoinCall)

/-- The calls as a chain. -/
def JoinCall.applyAll : List JoinCall → Join → Result Join
  | [], j => .ok j
  | c :: calls, j => do
    let j ← (c.apply j).result
    applyAll calls j

/-- `As` of the value's class: `TableWithColumns` hides the one of its base. -/
def VirtualTable.aliased (v : VirtualTable) (name : Text) : Result VirtualTable :=
  match v with
  | .tableWithColumns t => do return .tableWithColumns (← t.as name)
  | v => do return .table (← v.as name)

def Source.build : Source → Result VirtualTable
  | table name => .ok (.table (.fromRaw name))
  | tableWithColumns name columns => .ok (.tableWithColumns (.fromRaw name columns))
  | query q => .ok q.toVirtualTable
  | .alias s name => do
    let v ← s.build
    v.aliased name
  | join a b kind calls => do
    let a ← a.build
    let b ← b.build
    let j ← Join.new a b kind
    return .join (← JoinCall.applyAll calls j)

/-! ## What a FROM clause is made of -/

inductive FromItem
  | named (name : Text)
  /-- Any item under an alias. -/
  | aliased (a : FromItem) (name : Text)
  /-- A query in brackets without an alias. -/
  | subquery (body : Text)
  /-- A join, with what stands behind it. -/
  | join (a : FromItem) (kind : JoinKind) (b : FromItem) (rest : Text)

namespace FromItem

/-- A join is an operand in brackets. -/
def bracketed (isJoin : Bool) (x : Text) : Text :=
  if isJoin then "(".toList ++ x ++ ")".toList else x

def isJoin : FromItem → Bool
  | join .. => true
  | _ => false

def text : FromItem → Text
  | named name => name
  | aliased a name => bracketed a.isJoin a.text ++ " AS ".toList ++ name
  | subquery body => "(".toList ++ body ++ ")".toList
  | join a kind b rest =>
    bracketed a.isJoin a.text ++ " ".toList ++ kind.toString ++ " JOIN ".toList ++
      bracketed b.isJoin b.text ++ rest

def isSubquery : FromItem → Bool
  | subquery _ => true
  | _ => false

/-- Every item at every level is a table name, an aliased item, or a join of such items, joins under
an alias included: a query has an alias right behind it. -/
def Proper : FromItem → Prop
  | named _ => True
  | aliased a _ => a.isSubquery ∨ a.Proper
  | subquery _ => False
  | join a _ b _ => a.Proper ∧ b.Proper

end FromItem

/-- The `ON` or `USING` of a join. -/
def Join.rest (j : Join) : Text :=
  (if j.on_.isEmpty then [] else " ON ".toList ++ j.on_) ++
    if j.using_.isEmpty then [] else " USING (".toList ++ j.using_ ++ ")".toList

/-- The text of a query; one that is not complete has none. -/
def Query.text (q : Query) : Text :=
  match q.toVirtualTable.toString with
  | .ok x => x
  | .error _ => []

def Source.item : Source → FromItem
  | table name => .named name
  | tableWithColumns name _ => .named name
  | query q => .subquery q.text
  | .alias s name => .aliased s.item name
  | join a b kind calls => .join a.item kind b.item <| match (join a b kind calls).build with
    | .ok (.join j) => j.rest
    | _ => []

def Source.isQuery : Source → Bool
  | query _ => true
  | _ => false

/-- Some join of the source, under an alias or not, has a query without an alias as its operand. -/
def Source.bareOperand : Source → Bool
  | join a b _ _ => a.isQuery || b.isQuery || a.bareOperand || b.bareOperand
  | .alias s _ => s.bareOperand
  | _ => false

end IronQuery
